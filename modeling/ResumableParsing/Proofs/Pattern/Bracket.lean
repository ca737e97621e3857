/-
# Classes in brackets before a closing parenthesis

A class is read up to its closing bracket, lexeme by lexeme.  Each lexeme is read by a local reader,
whatever its first character is (`local_bracketLexeme`), and so is the whole class
(`local_bracket`).  A member of a class may well be a parenthesis; it cannot be the one behind the
text, since then the reader would have taken it.
-/
import ResumableParsing.Proofs.Pattern.Local

namespace ResumableParsing

variable {cs tail rest : List Char}

/-! ## Members -/

/-- Behind its first character, an item is read by a local reader. -/
theorem local_bracketItem (c : Char) : Local fun cs => bracketItem (c :: cs) := by
  by_cases hc : c = '\\'
  · subst hc
    exact local_patternEscape.bind fun l => (stops_option l.bracketItem?).local
  · have heq : (fun cs => bracketItem (c :: cs)) = fun cs => some (.character c, cs) := by
      funext cs
      rw [bracketItem]
      exact hc
    rw [heq]
    exact (stops_pure _).local

/-- Only a hyphen goes on behind an item. -/
theorem bracketRange_of_ne {lo : BracketItem} {d : Char} (hd : d ≠ '-') (cs : List Char) :
    bracketRange lo (d :: cs) = some (lo.toClass, d :: cs) := by
  rw [bracketRange]
  · rintro ⟨⟩
    exact hd rfl
  · rintro c rest ⟨⟩
    exact hd rfl

/-- What stands behind the hyphen of a range is read by a local reader. -/
theorem local_rangeEnd (lo : BracketItem) (c : Char) : Local fun cs =>
    (bracketItem (c :: cs)).bind fun x => (rangeClass lo x.1).map fun k => (k, x.2) :=
  (local_bracketItem c).bind fun hi => (stops_option (rangeClass lo hi)).local

/-- What stands behind an item is read by a local reader. -/
theorem local_bracketRange (lo : BracketItem) : Local (bracketRange lo) where
  suffix {cs k rest} h := by
    unfold bracketRange at h
    split at h
    · cases h
    · split at h
      · cases h
        exact List.suffix_rfl
      · have hend := (local_rangeEnd lo _).suffix h
        exact hend.trans ((List.suffix_cons _ _).trans (List.suffix_cons _ _))
    · cases h
      exact List.suffix_rfl
  append_iff {cs tail k rest} := by
    rcases cs with _ | ⟨d, cs⟩
    · rw [List.nil_append, bracketRange_of_ne (by decide)]
      exact read_append_iff [] rest
    · by_cases hd : d = '-'
      · subst hd
        rcases cs with _ | ⟨c, cs⟩
        · -- the parenthesis would be the end of the range
          refine iff_of_false (fun h => ?_) nofun
          have hlen := ((local_rangeEnd lo ')').suffix h).length_le
          simp at hlen
          omega
        · by_cases hc : c = ']' ∨ c = '-'
          · simp only [List.cons_append, bracketRange, if_pos hc]
            exact read_append_iff ('-' :: c :: cs) rest
          · simp only [List.cons_append, bracketRange, if_neg hc]
            exact (local_rangeEnd lo c).append_iff
      · rw [List.cons_append, bracketRange_of_ne hd, bracketRange_of_ne hd]
        exact read_append_iff (d :: cs) rest

/-- Behind their first character, members are read by a local reader. -/
theorem local_bracketMembers (c : Char) : Local fun cs => bracketMembers (c :: cs) :=
  (local_bracketItem c).bind local_bracketRange

/-! ## The beginning of a class -/

/-- The sign of a negated class is read the same before a parenthesis. -/
theorem bracketSign_append (cs tail : List Char) :
    bracketSign (cs ++ ')' :: tail) = ((bracketSign cs).1, (bracketSign cs).2 ++ ')' :: tail) := by
  rcases cs with _ | ⟨c, cs⟩
  · rfl
  · by_cases hc : c = '^'
    · subst hc
      rfl
    · simp [bracketSign, hc]

/-- What is left behind the sign of a negated class is the end of the text. -/
theorem bracketSign_suffix (cs : List Char) : (bracketSign cs).2 <:+ cs := by
  unfold bracketSign
  split
  · exact List.suffix_cons _ _
  · exact List.suffix_rfl

/-- The first members of a class are read the same before a parenthesis. -/
theorem firstMembers_append (cs tail : List Char) :
    firstMembers (cs ++ ')' :: tail) =
      ((firstMembers cs).1, (firstMembers cs).2 ++ ')' :: tail) := by
  unfold firstMembers
  rw [takeWhile_append_closing (by decide), dropWhile_append_closing (by decide)]
  rcases (cs.takeWhile (· = '-')).map CharClass.singleton with _ | ⟨k, ks⟩
  · rcases cs.dropWhile (· = '-') with _ | ⟨c, cs⟩
    · rfl
    · by_cases hc : c = ']'
      · subst hc
        rfl
      · simp [hc]
  · rfl

/-- What is left behind the first members of a class is the end of the text. -/
theorem firstMembers_suffix (cs : List Char) : (firstMembers cs).2 <:+ cs := by
  unfold firstMembers
  have hdrop : cs.dropWhile (· = '-') <:+ cs := List.dropWhile_suffix _
  split
  · rename_i hdropped
    exact (List.suffix_cons _ _).trans (hdropped ▸ hdrop)
  · exact hdrop

/-- The beginning of a class in a class is read the same before a parenthesis. -/
theorem stops_bracketOpening : Stops fun cs => some (bracketOpening cs) where
  suffix := by
    rintro cs _ _ ⟨⟩
    exact (firstMembers_suffix _).trans (bracketSign_suffix cs)
  append cs tail := by
    simp only [bracketOpening, bracketSign_append, firstMembers_append]
    rfl

/-- A parenthesis is no letter of a name. -/
theorem isLower_closing : Char.isLower ')' = false := by decide

/-- The name of a class is read the same before a parenthesis. -/
theorem stops_namedClass : Stops namedClass where
  suffix {cs a rest} h := by
    unfold namedClass at h
    split at h
    · rename_i cs
      have hdrop : (bracketSign cs).2.dropWhile Char.isLower <:+ cs :=
        (List.dropWhile_suffix _).trans (bracketSign_suffix cs)
      dsimp only at h
      split at h
      · rename_i hrest
        cases h
        rw [hrest] at hdrop
        have hend : rest <:+ ':' :: ']' :: rest :=
          (List.suffix_cons _ _).trans (List.suffix_cons _ _)
        exact (hend.trans hdrop).trans (List.suffix_cons _ _)
      · cases h
    · cases h
  append cs tail := by
    rcases cs with _ | ⟨c, cs⟩
    · rfl
    · by_cases hc : c = ':'
      · subst hc
        simp only [List.cons_append, namedClass, bracketSign_append,
          takeWhile_append_closing isLower_closing, dropWhile_append_closing isLower_closing]
        rcases asciiRanges _ with _ | ranges
        · rfl
        · rcases (bracketSign cs).2.dropWhile Char.isLower with _ | ⟨d, _ | ⟨e, left⟩⟩
          · rfl
          · by_cases hd : d = ':'
            · subst hd
              rfl
            · simp [hd]
          · by_cases hd : d = ':' ∧ e = ']'
            · obtain ⟨rfl, rfl⟩ := hd
              rfl
            · simp only [List.cons_append]
              split
              · rename_i heq
                cases heq
                exact absurd ⟨rfl, rfl⟩ hd
              · split
                · rename_i heq
                  cases heq
                  exact absurd ⟨rfl, rfl⟩ hd
                · rfl
      · simp [namedClass, hc]

/-- A doubled operator is no parenthesis. -/
theorem stops_doubledOperator (c : Char) : Stops (doubledOperator c) where
  suffix {cs l rest} h := by
    rcases cs with _ | ⟨d, cs⟩
    · cases h
    · obtain ⟨-, h⟩ := Option.ite_none_right_eq_some.mp h
      obtain ⟨_, -, heq⟩ := Option.map_eq_some_iff.mp h
      cases heq
      exact List.suffix_cons _ _
  append cs tail := by
    rcases cs with _ | ⟨d, cs⟩
    · show (if ')' = c then _ else none) = none
      split
      · rename_i hc
        rw [← hc]
        rfl
      · rfl
    · simp only [List.cons_append, doubledOperator]
      split
      · cases setOperator c <;> rfl
      · rfl

/-! ## Whole classes -/

/-- Behind its first character, a lexeme of a class is read by a local reader. -/
theorem local_bracketLexeme (c : Char) : Local fun cs => bracketLexeme (c :: cs) := by
  by_cases hend : c = ']'
  · subst hend
    exact (stops_pure _).local
  · by_cases hopen : c = '['
    · subst hopen
      exact .orElse stops_namedClass stops_bracketOpening.local
    · have heq : (fun cs => bracketLexeme (c :: cs)) = fun cs =>
          (doubledOperator c cs).or
            ((bracketMembers (c :: cs)).map fun x => (.members (.members x.1), x.2)) := by
        funext cs
        rw [bracketLexeme]
        · exact hend
        · exact hopen
      rw [heq]
      exact .orElse (stops_doubledOperator c)
        ((local_bracketMembers c).map fun k => BracketLexeme.members (.members k))

/-- A lexeme of a class takes at least one character. -/
theorem length_bracketLexeme {l : BracketLexeme} (h : bracketLexeme cs = some (l, rest)) :
    rest.length < cs.length := by
  rcases cs with _ | ⟨c, cs⟩
  · cases h
  · exact Nat.lt_succ_of_le ((local_bracketLexeme c).suffix h).length_le

/-- The lexemes of a class are read by a local reader. -/
theorem local_bracketLexemes (k open_ : Nat) : Local (bracketLexemes k open_) := by
  induction k generalizing open_ with
  | zero => exact stops_none.local
  | succ k ih =>
    have hlexeme : Local bracketLexeme := .uncons local_bracketLexeme rfl fun _ _ => rfl
    refine hlexeme.bind (f := fun l rest => (l.openAfter open_).elim (some ([], rest)) fun open_ =>
      (bracketLexemes k open_ rest).map fun x => (l :: x.1, x.2)) fun l => ?_
    cases l.openAfter open_ with
    | none => exact (stops_pure _).local
    | some open_ => exact (ih open_).map _

/-- How many lexemes are allowed does not matter if there are as many as characters. -/
theorem bracketLexemes_congr {n m open_ : Nat} (hn : cs.length < n) (hm : cs.length < m) :
    bracketLexemes n open_ cs = bracketLexemes m open_ cs := by
  induction n generalizing cs m open_ with
  | zero => omega
  | succ n ih =>
    obtain ⟨m, rfl⟩ : ∃ m', m = m' + 1 := ⟨m - 1, by omega⟩
    rw [bracketLexemes, bracketLexemes]
    rcases hl : bracketLexeme cs with _ | ⟨l, rest⟩
    · rfl
    · have hlen := length_bracketLexeme hl
      simp only [Option.bind_some]
      cases l.openAfter open_ with
      | none => rfl
      | some open_ => exact congrArg (Option.map _) (ih (by omega) (by omega))

/-- A class in brackets is read by a local reader. -/
theorem local_bracket : Local bracket where
  suffix {cs l rest} h := by
    obtain ⟨x, hx, heq⟩ := Option.map_eq_some_iff.mp h
    cases heq
    have hend := (local_bracketLexemes _ _).suffix hx
    exact hend.trans ((firstMembers_suffix _).trans (bracketSign_suffix cs))
  append_iff {cs tail l rest} := by
    simp only [bracket, bracketSign_append, firstMembers_append]
    have hlen : (firstMembers (bracketSign cs).2).2.length <
        ((firstMembers (bracketSign cs).2).2 ++ ')' :: tail).length + 1 := by
      rw [List.length_append]
      omega
    rw [bracketLexemes_congr (Nat.lt_succ_self _) hlen]
    exact ((local_bracketLexemes _ _).map _).append_iff

end ResumableParsing
