/-
# Readers before a closing parenthesis

A reader takes the first characters of a text and leaves the others.  It is local if a closing
parenthesis is like the end of the text to it: what it leaves of a text it leaves, with the
parenthesis behind it, of a text that goes on with one (`Local`).  Readers that are used one after
the other are local if each of them is (`Local.bind`), so that locality is shown of the readers of
single signs, of counts and of digits, and passed on from there to repetitions, escapes and groups.
-/
import ResumableParsing.Pattern.Lexeme

namespace ResumableParsing

variable {α β : Type} {cs tail rest : List Char}

/-! ## Local readers -/

/-- A reader to which it makes no difference whether the text ends or a closing parenthesis stands
there, unless it takes the parenthesis. -/
structure Local (read : List Char → Option (α × List Char)) : Prop where
  /-- What is left is the end of the text. -/
  suffix : ∀ {cs a rest}, read cs = some (a, rest) → rest <:+ cs
  /-- Before a parenthesis the same is read. -/
  append_iff : ∀ {cs tail a rest},
    read (cs ++ ')' :: tail) = some (a, rest ++ ')' :: tail) ↔ read cs = some (a, rest)

/-- A reader that stops before a closing parenthesis in any case. -/
structure Stops (read : List Char → Option (α × List Char)) : Prop where
  /-- What is left is the end of the text. -/
  suffix : ∀ {cs a rest}, read cs = some (a, rest) → rest <:+ cs
  /-- Before a parenthesis the same is read. -/
  append : ∀ cs tail, read (cs ++ ')' :: tail) = (read cs).map fun x => (x.1, x.2 ++ ')' :: tail)

/-- A text that begins with a parenthesis behind another text is not the rest of what follows it. -/
theorem append_closing_ne {cs tail : List Char} : cs ++ ')' :: tail ≠ tail := by
  intro h
  have hlen := congrArg List.length h
  simp at hlen
  omega

/-- What stands behind the rest of a text does not matter to what the rest is. -/
theorem read_append_iff {a b : α} (left rest : List Char) {end_ : List Char} :
    some (a, left ++ end_) = some (b, rest ++ end_) ↔ some (a, left) = some (b, rest) := by
  simp

/-- A reader that always stops before a parenthesis is local. -/
theorem Stops.local {read : List Char → Option (α × List Char)} (h : Stops read) : Local read where
  suffix := h.suffix
  append_iff {cs tail a rest} := by
    rw [h.append]
    cases read cs with
    | none => simp
    | some x => simp [Prod.ext_iff]

/-- A reader that takes nothing stops. -/
theorem stops_pure (a : α) : Stops fun cs => some (a, cs) where
  suffix := by
    rintro cs _ _ ⟨⟩
    exact List.suffix_rfl
  append _ _ := rfl

/-- A reader that refuses every text stops. -/
theorem stops_none : Stops fun _ : List Char => (none : Option (α × List Char)) where
  suffix := nofun
  append _ _ := rfl

/-- A reader that takes nothing, or refuses every text, stops. -/
theorem stops_option (x : Option α) : Stops fun cs => x.map fun a => (a, cs) :=
  match x with
  | none => stops_none
  | some a => stops_pure a

namespace Local

variable {read : List Char → Option (α × List Char)}

/-- Changing what was read keeps a reader local. -/
theorem map (h : Local read) (f : α → β) :
    Local fun cs => (read cs).map fun x => (f x.1, x.2) where
  suffix {cs b rest} hread := by
    obtain ⟨x, hx, heq⟩ := Option.map_eq_some_iff.mp hread
    cases heq
    exact h.suffix hx
  append_iff {cs tail b rest} := by
    simp only [Option.map_eq_some_iff, Prod.exists, Prod.mk.injEq]
    constructor
    · rintro ⟨a, _, hread, rfl, rfl⟩
      exact ⟨a, rest, h.append_iff.mp hread, rfl, rfl⟩
    · rintro ⟨a, _, hread, rfl, rfl⟩
      exact ⟨a, _, h.append_iff.mpr hread, rfl, rfl⟩

/-- Two readers, the second of which may depend on what the first has read, are local together. -/
theorem bind (h : Local read) {f : α → List Char → Option (β × List Char)}
    (hf : ∀ a, Local (f a)) : Local fun cs => (read cs).bind fun x => f x.1 x.2 where
  suffix {cs b rest} hread := by
    obtain ⟨x, hx, hb⟩ := Option.bind_eq_some_iff.mp hread
    exact ((hf x.1).suffix hb).trans (h.suffix hx)
  append_iff {cs tail b rest} := by
    simp only [Option.bind_eq_some_iff, Prod.exists]
    constructor
    · rintro ⟨a, left, hread, hb⟩
      -- what the first reader leaves ends like the text
      obtain ⟨read, hleft⟩ := (hf a).suffix hb
      rw [← List.append_assoc] at hleft
      subst hleft
      exact ⟨a, _, h.append_iff.mp hread, (hf a).append_iff.mp hb⟩
    · rintro ⟨a, left, hread, hb⟩
      exact ⟨a, _, h.append_iff.mpr hread, (hf a).append_iff.mpr hb⟩

/-- Trying a reader that stops before another one is local if the other one is. -/
theorem orElse {first : List Char → Option (α × List Char)} (hfirst : Stops first)
    (h : Local read) : Local fun cs => (first cs).or (read cs) where
  suffix {cs a rest} hread := by
    rcases Option.or_eq_some_iff.mp hread with hread | ⟨-, hread⟩
    · exact hfirst.suffix hread
    · exact h.suffix hread
  append_iff {cs tail a rest} := by
    rw [hfirst.append]
    cases first cs with
    | none => exact h.append_iff
    | some x => exact read_append_iff x.2 rest

/-- What is read behind a first character is local if it is for each of them. -/
theorem uncons {f : Char → List Char → Option (α × List Char)} (h : ∀ c, Local (f c))
    {read : List Char → Option (α × List Char)} (hnil : read [] = none)
    (hcons : ∀ c cs, read (c :: cs) = f c cs) : Local read where
  suffix {cs a rest} hread := by
    rcases cs with _ | ⟨c, cs⟩
    · rw [hnil] at hread
      cases hread
    · rw [hcons] at hread
      exact ((h c).suffix hread).trans (List.suffix_cons c cs)
  append_iff {cs tail a rest} := by
    rcases cs with _ | ⟨c, cs⟩
    · -- the reader would have to leave the parenthesis that it has taken
      rw [hnil, List.nil_append, hcons]
      refine iff_of_false (fun hread => ?_) nofun
      have hlen := ((h ')').suffix hread).length_le
      simp at hlen
      omega
    · rw [List.cons_append, hcons, hcons]
      exact (h c).append_iff

end Local

/-! ## Signs, counts and digits -/

/-- The characters of a kind at the beginning of a text do not go beyond a parenthesis that is not
of that kind. -/
theorem takeWhile_append_closing {f : Char → Bool} (hf : f ')' = false) (cs tail : List Char) :
    (cs ++ ')' :: tail).takeWhile f = cs.takeWhile f := by
  rw [List.takeWhile_append, List.takeWhile_cons_of_neg (by simp [hf])]
  split
  · rw [List.append_nil, List.IsPrefix.eq_of_length (List.takeWhile_prefix f) ‹_›]
  · rfl

/-- What stands behind the characters of a kind begins, at the latest, with a parenthesis that is
not of that kind. -/
theorem dropWhile_append_closing {f : Char → Bool} (hf : f ')' = false) (cs tail : List Char) :
    (cs ++ ')' :: tail).dropWhile f = cs.dropWhile f ++ ')' :: tail := by
  rw [List.dropWhile_append, List.dropWhile_cons_of_neg (by simp [hf])]
  split
  · have hnil := List.isEmpty_iff.mp ‹_›
    rw [hnil, List.nil_append]
  · rfl

/-- A question mark behind a repetition is left out or not whatever follows. -/
theorem withoutLazyMark_append (cs tail : List Char) :
    withoutLazyMark (cs ++ ')' :: tail) = withoutLazyMark cs ++ ')' :: tail := by
  rcases cs with _ | ⟨c, cs⟩
  · rfl
  · by_cases hc : c = '?'
    · subst hc
      rfl
    · simp [withoutLazyMark, hc]

/-- Whether or not there is a question mark behind a repetition, what is left is the end of the
text. -/
theorem withoutLazyMark_suffix (cs : List Char) : withoutLazyMark cs <:+ cs := by
  unfold withoutLazyMark
  split
  · exact List.suffix_cons _ _
  · exact List.suffix_rfl

/-- Leaving out a question mark stops before a parenthesis. -/
theorem stops_repetition (a : α) : Stops fun cs => some (a, withoutLazyMark cs) where
  suffix := by
    rintro cs _ _ ⟨⟩
    exact withoutLazyMark_suffix cs
  append cs tail := congrArg (fun rest => some (a, rest)) (withoutLazyMark_append cs tail)

/-- A parenthesis is no blank. -/
theorem isBlank_closing : isBlank ')' = false := by decide

/-- A parenthesis is no digit. -/
theorem isDigit_closing : Char.isDigit ')' = false := by decide

/-- A count ends before a parenthesis. -/
theorem stops_count : Stops count where
  suffix {cs n rest} h := by
    unfold count at h
    dsimp only at h
    split at h
    · cases h
    · cases h
      exact (List.dropWhile_suffix _).trans
        ((List.dropWhile_suffix _).trans (List.dropWhile_suffix _))
  append cs tail := by
    unfold count
    simp only [dropWhile_append_closing isBlank_closing, takeWhile_append_closing isDigit_closing,
      dropWhile_append_closing isDigit_closing]
    split <;> rfl

/-- Read a sign that stands for something. -/
def readSign (sign : Char) (a : α) : List Char → Option (α × List Char)
  | [] => none
  | c :: cs => if c = sign then some (a, cs) else none

/-- A sign other than the parenthesis is not looked for behind one. -/
theorem stops_sign (sign : Char) (h : ')' ≠ sign) (a : α) : Stops (readSign sign a) where
  suffix {cs b rest} hread := by
    rcases cs with _ | ⟨c, cs⟩
    · cases hread
    · obtain ⟨-, heq⟩ := Option.ite_none_right_eq_some.mp hread
      cases heq
      exact List.suffix_cons _ _
  append cs tail := by
    rcases cs with _ | ⟨c, cs⟩
    · exact if_neg h
    · simp only [List.cons_append, readSign]
      split <;> rfl

/-! ## Repetitions -/

/-- The brace behind a greater count is read by a local reader. -/
theorem local_countsEnd (min max : Nat) : Local (countsEnd min max) := by
  have heq : countsEnd min max = fun cs =>
      if min ≤ max then readSign '\x7d' (Lexeme.times min (some max)) cs else none := by
    funext cs
    rcases cs with _ | ⟨c, cs⟩
    · simp [countsEnd, readSign]
    · by_cases hc : c = '\x7d'
      · subst hc
        rfl
      · simp [countsEnd, readSign, hc]
  rw [heq]
  split
  · exact (stops_sign '\x7d' (by decide) _).local
  · exact stops_none.local

/-- What stands behind the comma of a repetition is read by a local reader. -/
theorem local_countsFrom (min : Nat) : Local (countsFrom min) := by
  have heq : countsFrom min = fun cs => (readSign '\x7d' (Lexeme.times min none) cs).or
      ((count cs).bind fun x => countsEnd min x.1 x.2) := by
    funext cs
    rcases cs with _ | ⟨c, cs⟩
    · simp [countsFrom, readSign]
    · by_cases hc : c = '\x7d'
      · subst hc
        rfl
      · simp [countsFrom, readSign, hc]
  rw [heq]
  exact .orElse (stops_sign '\x7d' (by decide) _) (stops_count.local.bind (local_countsEnd min))

/-- What stands behind the first count of a repetition decides whether another one is read. -/
theorem counts_eq (cs : List Char) :
    counts cs = (count cs).bind fun x =>
      (readSign '\x7d' (Lexeme.times x.1 (some x.1)) x.2).or
        ((readSign ',' x.1 x.2).bind fun y => countsFrom y.1 y.2) := by
  unfold counts
  refine congrArg (Option.bind (count cs)) (funext fun x => ?_)
  obtain ⟨n, _ | ⟨c, rest⟩⟩ := x
  · rfl
  · by_cases hbrace : c = '\x7d'
    · subst hbrace
      rfl
    · by_cases hcomma : c = ','
      · subst hcomma
        rfl
      · simp [readSign, hbrace, hcomma]

/-- Repetitions with counts are read by a local reader. -/
theorem local_counts : Local fun cs =>
    (counts cs).map fun (l, rest) => (l, withoutLazyMark rest) := by
  have heq : (fun cs => (counts cs).map fun (l, rest) => (l, withoutLazyMark rest)) = fun cs =>
      (counts cs).bind fun x => some (x.1, withoutLazyMark x.2) := by
    funext cs
    exact Option.map_eq_bind
  rw [heq]
  refine .bind ?_ fun l => (stops_repetition l).local
  rw [funext counts_eq]
  refine stops_count.local.bind (f := fun n cs =>
    (readSign '\x7d' (Lexeme.times n (some n)) cs).or
      ((readSign ',' n cs).bind fun y => countsFrom y.1 y.2)) fun n => ?_
  refine .orElse (stops_sign '\x7d' (by decide) _) ?_
  exact (stops_sign ',' (by decide) n).local.bind local_countsFrom

/-! ## Escapes -/

/-- A parenthesis is no hexadecimal digit. -/
theorem isHexDigit_closing : isHexDigit ')' = false := by decide

/-- The digits of a code point in braces end before a parenthesis. -/
theorem stops_bracedCodePoint : Stops bracedCodePoint where
  suffix {cs l rest} h := by
    have hdrop : cs.dropWhile isHexDigit <:+ cs := List.dropWhile_suffix _
    unfold bracedCodePoint at h
    split at h
    · rename_i hrest
      obtain ⟨_, -, heq⟩ := Option.map_eq_some_iff.mp h
      cases heq
      rw [hrest] at hdrop
      exact (List.suffix_cons _ _).trans hdrop
    · cases h
  append cs tail := by
    unfold bracedCodePoint
    rw [takeWhile_append_closing isHexDigit_closing, dropWhile_append_closing isHexDigit_closing]
    rcases cs.takeWhile isHexDigit with _ | ⟨d, digits⟩
    · rfl
    · rcases cs.dropWhile isHexDigit with _ | ⟨c, rest⟩
      · rfl
      · by_cases hc : c = '\x7d'
        · subst hc
          show (codePoint _).map _ = ((codePoint _).map _).map _
          cases codePoint (d :: digits) <;> rfl
        · simp [hc]

/-- A fixed number of digits does not go beyond a parenthesis. -/
theorem stops_fixedCodePoint (width : Nat) : Stops (fixedCodePoint width) where
  suffix {cs l rest} h := by
    obtain ⟨-, h⟩ := Option.ite_none_right_eq_some.mp h
    obtain ⟨_, -, heq⟩ := Option.map_eq_some_iff.mp h
    cases heq
    exact List.drop_suffix _ _
  append cs tail := by
    unfold fixedCodePoint
    rw [takeWhile_append_closing isHexDigit_closing]
    by_cases hwidth : width ≤ (cs.takeWhile isHexDigit).length
    · have hle := Nat.le_trans hwidth (List.takeWhile_prefix isHexDigit).length_le
      rw [if_pos hwidth, if_pos hwidth, List.take_append_of_le_length hle,
        List.drop_append_of_le_length hle]
      cases codePoint (cs.take width) <;> rfl
    · rw [if_neg hwidth, if_neg hwidth]
      rfl

/-- Without a brace, the number of digits is fixed. -/
theorem hexEscape_of_ne {width : Nat} {c : Char} (h : c ≠ '\x7b') (cs : List Char) :
    hexEscape width (c :: cs) = fixedCodePoint width (c :: cs) := by
  rw [hexEscape]
  rintro rest ⟨⟩
  exact h rfl

/-- A code point ends before a parenthesis. -/
theorem stops_hexEscape (width : Nat) : Stops (hexEscape width) where
  suffix {cs l rest} h := by
    unfold hexEscape at h
    split at h
    · exact (stops_bracedCodePoint.suffix h).trans (List.suffix_cons _ _)
    · exact (stops_fixedCodePoint width).suffix h
  append cs tail := by
    rcases cs with _ | ⟨c, cs⟩
    · exact (stops_fixedCodePoint width).append [] tail
    · by_cases hc : c = '\x7b'
      · subst hc
        exact stops_bracedCodePoint.append cs tail
      · rw [List.cons_append, hexEscape_of_ne hc, hexEscape_of_ne hc]
        exact (stops_fixedCodePoint width).append (c :: cs) tail

/-- What stands behind a backslash is read by a local reader. -/
theorem local_patternEscape : Local patternEscape := by
  refine .uncons (f := fun c cs => patternEscape (c :: cs)) (fun c => ?_) rfl fun _ _ => rfl
  by_cases hx : c = 'x'
  · subst hx
    exact (stops_hexEscape 2).local
  · by_cases hu : c = 'u'
    · subst hu
      exact (stops_hexEscape 4).local
    · by_cases hU : c = 'U'
      · subst hU
        exact (stops_hexEscape 8).local
      · have heq : (fun cs => patternEscape (c :: cs)) = fun cs =>
            (escapeLexeme c).map fun l => (l, cs) := by
          funext cs
          rw [patternEscape]
          · exact hx
          · exact hu
          · exact hU
        rw [heq]
        exact (stops_option (escapeLexeme c)).local

/-! ## Groups -/

/-- A character among flags ends them, or else the next one is read. -/
theorem flags_head (value : Bool) (seen : FlagChanges) (c : Char) :
    (∃ x : Option Lexeme, x ≠ some .closing ∧
        ∀ cs, flags value seen (c :: cs) = x.map fun l => (l, cs)) ∨
      ∃ x : Option (Bool × FlagChanges), ∀ cs,
        flags value seen (c :: cs) = x.bind fun y => flags y.1 y.2 cs := by
  by_cases hcolon : c = ':'
  · subst hcolon
    refine .inl ⟨if value || seen.any (!·.2) then some (.opening seen) else none, ?_, fun cs => ?_⟩
    · split <;> nofun
    · show (if _ then some _ else none : Option (Lexeme × List Char)) = _
      split <;> rfl
  · by_cases hclosing : c = ')'
    · subst hclosing
      refine .inl ⟨if seen ≠ [] ∧ (value || seen.any (!·.2)) then some (.setting seen) else none,
        ?_, fun cs => ?_⟩
      · split <;> nofun
      · show (if _ then some _ else none : Option (Lexeme × List Char)) = _
        split <;> rfl
    · by_cases hhyphen : c = '-'
      · subst hhyphen
        refine .inr ⟨if value then some (false, seen) else none, fun cs => ?_⟩
        cases value <;> rfl
      · refine .inr ⟨(flagNamed c).bind fun f =>
          if seen.any (·.1 = f) then none else some (value, seen ++ [(f, value)]), fun cs => ?_⟩
        rw [flags]
        · cases flagNamed c with
          | none => rfl
          | some f =>
            show (if _ then none else _) = Option.bind (if _ then none else some _) _
            split <;> rfl
        · exact hcolon
        · exact hclosing
        · exact hhyphen

/-- A parenthesis makes of flags a change of flags. -/
theorem flags_closing {value : Bool} {seen : FlagChanges}
    (h : flags value seen (')' :: cs) = some (l, rest)) : l = .setting seen ∧ rest = cs := by
  obtain ⟨-, heq⟩ := Option.ite_none_right_eq_some.mp h
  cases heq
  exact ⟨rfl, rfl⟩

/-- What is left behind flags is the end of the text. -/
theorem flags_suffix {value : Bool} {seen : FlagChanges}
    (h : flags value seen cs = some (l, rest)) : rest <:+ cs := by
  induction cs generalizing value seen with
  | nil => cases h
  | cons c cs ih =>
    obtain ⟨x, -, hx⟩ | ⟨x, hx⟩ := flags_head value seen c <;> rw [hx] at h
    · obtain ⟨_, -, heq⟩ := Option.map_eq_some_iff.mp h
      cases heq
      exact List.suffix_cons _ _
    · obtain ⟨_, -, h⟩ := Option.bind_eq_some_iff.mp h
      exact (ih h).trans (List.suffix_cons _ _)

/-- Flags are not the end of a group. -/
theorem flags_ne_closing {value : Bool} {seen : FlagChanges} :
    flags value seen cs ≠ some (.closing, rest) := by
  intro h
  induction cs generalizing value seen with
  | nil => cases h
  | cons c cs ih =>
    obtain ⟨x, hclosing, hx⟩ | ⟨x, hx⟩ := flags_head value seen c <;> rw [hx] at h
    · obtain ⟨_, hx, heq⟩ := Option.map_eq_some_iff.mp h
      cases heq
      exact hclosing hx
    · obtain ⟨_, -, h⟩ := Option.bind_eq_some_iff.mp h
      exact ih h

/-- Flags end with a colon, or else with a parenthesis that they take. -/
theorem local_flags (value : Bool) (seen : FlagChanges) : Local (flags value seen) where
  suffix := flags_suffix
  append_iff {cs tail l rest} := by
    induction cs generalizing value seen with
    | nil =>
      refine iff_of_false (fun h => ?_) nofun
      exact append_closing_ne (flags_closing h).2
    | cons c cs ih =>
      obtain ⟨x, -, hx⟩ | ⟨x, hx⟩ := flags_head value seen c <;> rw [List.cons_append, hx, hx]
      · simp
      · simp only [Option.bind_eq_some_iff, ih]

/-- A parenthesis that no question mark follows begins a group that changes no flags. -/
theorem lexeme_opening {c : Char} (hc : c ≠ '?') (cs : List Char) :
    lexeme ('(' :: c :: cs) = some (.opening [], c :: cs) := by
  rw [lexeme]
  rintro rest ⟨⟩
  exact hc rfl

/-- The beginning of a group is read by a local reader. -/
theorem local_group : Local fun cs => lexeme ('(' :: cs) where
  suffix {cs l rest} h := by
    rcases cs with _ | ⟨c, cs⟩
    · cases h
      exact List.suffix_rfl
    · by_cases hc : c = '?'
      · subst hc
        exact (flags_suffix h).trans (List.suffix_cons _ _)
      · rw [lexeme_opening hc] at h
        cases h
        exact List.suffix_rfl
  append_iff {cs tail l rest} := by
    rcases cs with _ | ⟨c, cs⟩
    · show some (Lexeme.opening [], ')' :: tail) = _ ↔ some (Lexeme.opening [], []) = _
      simp
    · by_cases hc : c = '?'
      · subst hc
        exact (local_flags true []).append_iff
      · rw [List.cons_append, lexeme_opening hc, lexeme_opening hc]
        exact read_append_iff (c :: cs) rest

end ResumableParsing
