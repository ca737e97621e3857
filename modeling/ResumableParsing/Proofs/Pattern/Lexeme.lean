/-
# Lexemes before a closing parenthesis

What a pattern is cut into does not depend on a closing parenthesis behind it.  However a lexeme
begins, what follows its first character is read by a local reader (`local_lexeme`), so a text and
what stands behind it, from a parenthesis on, are cut one after the other (`Lexes.append`).
-/
import ResumableParsing.Proofs.Pattern.Bracket

namespace ResumableParsing

variable {cs tail rest : List Char} {l : Lexeme}

/-! ## Lexemes -/

/-- The signs that do not stand for themselves. -/
def signs : List Char :=
  ['\\', '(', ')', '|', '[', '.', '^', '$', '*', '+', '?', '\x7b']

/-- Any other character stands for itself. -/
theorem lexeme_of_not_mem {c : Char} (hc : c ∉ signs) (cs : List Char) :
    lexeme (c :: cs) = some (.character c, cs) := by
  simp only [signs, List.mem_cons, List.not_mem_nil, or_false, not_or] at hc
  rw [lexeme] <;> grind

/-- However a lexeme begins, what follows its first character is read by a local reader. -/
theorem local_lexeme (c : Char) : Local fun rest => lexeme (c :: rest) := by
  by_cases hc : c ∈ signs
  · simp only [signs, List.mem_cons, List.not_mem_nil, or_false] at hc
    rcases hc with rfl | rfl | rfl | rfl | rfl | rfl | rfl | rfl | rfl | rfl | rfl | rfl
    · exact local_patternEscape
    · exact local_group
    · exact (stops_pure Lexeme.closing).local
    · exact (stops_pure Lexeme.bar).local
    · exact local_bracket
    · exact (stops_pure Lexeme.dot).local
    · exact (stops_pure Lexeme.caret).local
    · exact (stops_pure Lexeme.dollar).local
    · exact (stops_repetition (Lexeme.times 0 none)).local
    · exact (stops_repetition (Lexeme.times 1 none)).local
    · exact (stops_repetition (Lexeme.times 0 (some 1))).local
    · exact local_counts
  · have hread : (fun rest => lexeme (c :: rest)) = fun rest => some (.character c, rest) := by
      funext rest
      exact lexeme_of_not_mem hc rest
    rw [hread]
    exact (stops_pure _).local

/-- A lexeme is read the same before a parenthesis that is not part of it. -/
theorem lexeme_append_iff :
    lexeme (cs ++ ')' :: tail) = some (l, rest ++ ')' :: tail) ↔ lexeme cs = some (l, rest) :=
  (Local.uncons local_lexeme rfl fun _ _ => rfl : Local lexeme).append_iff

/-- What is left behind a lexeme is the end of the text. -/
theorem lexeme_suffix (h : lexeme cs = some (l, rest)) : rest <:+ cs := by
  rcases cs with _ | ⟨c, cs⟩
  · cases h
  · exact ((local_lexeme c).suffix h).trans (List.suffix_cons c cs)

/-- No code point is the end of a group. -/
theorem codePoint_ne_closing (digits : List Char) : codePoint digits ≠ some .closing := by
  unfold codePoint
  dsimp only
  split <;> nofun

/-- No code point is the end of a group. -/
theorem hexEscape_ne_closing {width : Nat} : hexEscape width cs ≠ some (.closing, rest) := by
  intro h
  unfold hexEscape at h
  split at h
  · unfold bracedCodePoint at h
    split at h
    · obtain ⟨l, hl, heq⟩ := Option.map_eq_some_iff.mp h
      cases heq
      exact codePoint_ne_closing _ hl
    · cases h
  · obtain ⟨-, h⟩ := Option.ite_none_right_eq_some.mp h
    obtain ⟨l, hl, heq⟩ := Option.map_eq_some_iff.mp h
    cases heq
    exact codePoint_ne_closing _ hl

/-- No escape is the end of a group. -/
theorem patternEscape_ne_closing : patternEscape cs ≠ some (.closing, rest) := by
  intro h
  unfold patternEscape at h
  split at h
  · cases h
  · exact hexEscape_ne_closing h
  · exact hexEscape_ne_closing h
  · exact hexEscape_ne_closing h
  · obtain ⟨l, hl, heq⟩ := Option.map_eq_some_iff.mp h
    cases heq
    unfold escapeLexeme at hl
    split at hl <;> first | cases hl | (split at hl <;> cases hl)

/-- No repetition with two counts is the end of a group. -/
theorem countsEnd_ne_closing {min max : Nat} :
    countsEnd min max cs ≠ some (.closing, rest) := by
  unfold countsEnd
  split
  · split <;> nofun
  · nofun

/-- No repetition is the end of a group. -/
theorem counts_ne_closing : counts cs ≠ some (.closing, rest) := by
  intro h
  obtain ⟨x, -, h⟩ := Option.bind_eq_some_iff.mp h
  split at h
  · cases h
  · unfold countsFrom at h
    split at h
    · cases h
    · obtain ⟨y, -, h⟩ := Option.bind_eq_some_iff.mp h
      exact countsEnd_ne_closing h
  · cases h

/-- Only a parenthesis by itself ends a group. -/
theorem eq_of_lexeme_closing (h : lexeme cs = some (.closing, rest)) : cs = ')' :: rest := by
  rcases cs with _ | ⟨c, cs⟩
  · cases h
  · by_cases hc : c ∈ signs
    · simp only [signs, List.mem_cons, List.not_mem_nil, or_false] at hc
      rcases hc with rfl | rfl | rfl | rfl | rfl | rfl | rfl | rfl | rfl | rfl | rfl | rfl
      · exact absurd h patternEscape_ne_closing
      · rcases cs with _ | ⟨c, cs⟩
        · cases h
        · by_cases hc : c = '?'
          · subst hc
            exact absurd h flags_ne_closing
          · rw [lexeme_opening hc] at h
            cases h
      · cases h
        rfl
      · cases h
      · obtain ⟨x, -, heq⟩ := Option.map_eq_some_iff.mp h
        cases heq
      · cases h
      · cases h
      · cases h
      · cases h
      · cases h
      · cases h
      · obtain ⟨⟨_, rest⟩, hcounts, heq⟩ := Option.map_eq_some_iff.mp h
        cases heq
        exact absurd hcounts counts_ne_closing
    · rw [lexeme_of_not_mem hc] at h
      cases h

/-! ## Whole texts -/

/-- The text is cut into the lexemes. -/
inductive Lexes : List Char → List Lexeme → Prop
  /-- Nothing is left. -/
  | nil : Lexes [] []
  /-- The first lexeme is read, and what is left is cut into the others. -/
  | cons {cs rest : List Char} {l : Lexeme} {ls : List Lexeme} (first : lexeme cs = some (l, rest))
      (others : Lexes rest ls) : Lexes cs (l :: ls)

/-- A lexeme takes at least one character. -/
theorem length_lexeme (h : lexeme cs = some (l, rest)) : rest.length < cs.length := by
  rcases cs with _ | ⟨c, cs⟩
  · cases h
  · exact Nat.lt_succ_of_le ((local_lexeme c).suffix h).length_le

/-- With as many lexemes as characters a text is cut just if it can be cut at all. -/
theorem lexemesWithin_eq_some_iff {n : Nat} {ls : List Lexeme} (hn : cs.length ≤ n) :
    lexemesWithin n cs = some ls ↔ Lexes cs ls := by
  induction n generalizing cs ls with
  | zero =>
    obtain rfl : cs = [] := List.length_eq_zero_iff.mp (Nat.le_zero.mp hn)
    constructor
    · rintro ⟨⟩
      exact .nil
    · rintro (_ | ⟨⟨⟩, -⟩)
      rfl
  | succ n ih =>
    rcases cs with _ | ⟨c, cs⟩
    · constructor
      · rintro ⟨⟩
        exact .nil
      · rintro (_ | ⟨⟨⟩, -⟩)
        rfl
    · have hstep : lexemesWithin (n + 1) (c :: cs) =
          (lexeme (c :: cs)).bind fun x => (lexemesWithin n x.2).map (x.1 :: ·) := by
        rw [lexemesWithin]
        · rcases lexeme (c :: cs) with _ | ⟨l, rest⟩ <;> rfl
        · nofun
      rw [hstep]
      constructor
      · intro h
        obtain ⟨⟨l, rest⟩, hfirst, h⟩ := Option.bind_eq_some_iff.mp h
        obtain ⟨ls, hls, rfl⟩ := Option.map_eq_some_iff.mp h
        have hlen := length_lexeme hfirst
        exact .cons hfirst ((ih (by simp only [List.length_cons] at hn hlen; omega)).mp hls)
      · rintro (_ | ⟨hfirst, hothers⟩)
        have hlen := length_lexeme hfirst
        have hothers := (ih (by simp only [List.length_cons] at hn hlen; omega)).mpr hothers
        rw [hfirst, Option.bind_some, hothers]
        rfl

/-- What a text is cut into. -/
theorem lexemes_eq_some_iff {ls : List Lexeme} : lexemes cs = some ls ↔ Lexes cs ls :=
  lexemesWithin_eq_some_iff (Nat.le_refl _)

/-- A text and what stands behind it, from a parenthesis on, are cut one after the other. -/
theorem Lexes.append {ls ls' : List Lexeme} (h : Lexes cs ls) (h' : Lexes (')' :: tail) ls') :
    Lexes (cs ++ ')' :: tail) (ls ++ ls') := by
  induction h with
  | nil => exact h'
  | cons first _ ih => exact .cons (lexeme_append_iff.mpr first) ih

/-- Once a text is cut, what stands behind it, from a parenthesis on, is cut like a text itself. -/
theorem Lexes.of_append {ls ls' : List Lexeme} (h : Lexes cs ls)
    (h' : Lexes (cs ++ ')' :: tail) ls') : ∃ ls'', ls' = ls ++ ls'' ∧ Lexes (')' :: tail) ls'' := by
  induction h generalizing ls' with
  | nil => exact ⟨ls', rfl, h'⟩
  | @cons cs rest l _ first _ ih =>
    have hfirst : lexeme (cs ++ ')' :: tail) = some (l, rest ++ ')' :: tail) :=
      lexeme_append_iff.mpr first
    generalize hcs : cs ++ ')' :: tail = cs' at h'
    cases h' with
    | nil =>
      exact absurd hcs (by simp)
    | cons first' others =>
      rw [hcs] at hfirst
      cases hfirst.symm.trans first'
      obtain ⟨ls'', rfl, hls''⟩ := ih others
      exact ⟨ls'', rfl, hls''⟩

end ResumableParsing
