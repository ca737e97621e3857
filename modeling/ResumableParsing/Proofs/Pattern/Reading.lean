/-
# Reading groups

What a lexeme makes of the groups that are open does not depend on the groups around them, except
for the end of a group, which needs one (`Lexeme.step_append`, `Lexeme.eq_closing_of_step`).  So
what follows a pattern that has been read is read behind the group that it makes up
(`exists_group_of_readGroup`), and when a pattern is read to its end although a group was open where
it began, then somewhere in it that group is closed, and what stands before is a pattern by itself
(`exists_inside_of_readGroup`).  A pattern is nested at least as deep as any part of it.
-/
import ResumableParsing.Pattern.Reading
import ResumableParsing.Proofs.Pattern.Lexeme

namespace ResumableParsing

/-! ## Reading one lexeme -/

/-- A class in brackets is a piece by itself. -/
theorem Lexeme.step_bracket (negated : Bool) (first : List CharClass) (inside : List BracketLexeme)
    (g : Group) (outer : List Group) :
    (bracket negated first inside).step g outer =
      ((bracket negated first inside).piece? g.flags).map fun e => (g.push e, outer) := rfl

/-- What a lexeme makes of a group does not depend on what is further around. -/
theorem Lexeme.step_append {l : Lexeme} {g : Group} {outer : List Group}
    {x : Group × List Group} (h : l.step g outer = some x) (around : List Group) :
    l.step g (outer ++ around) = some (x.1, x.2 ++ around) := by
  cases l with
  | times min max =>
    obtain ⟨g', hg', rfl⟩ := Option.map_eq_some_iff.mp h
    exact Option.map_eq_some_iff.mpr ⟨g', hg', rfl⟩
  | closing =>
    cases outer with
    | nil => cases h
    | cons parent outer =>
      cases h
      rfl
  | bracket negated first inside =>
    obtain ⟨e, he, rfl⟩ := Option.map_eq_some_iff.mp h
    exact Option.map_eq_some_iff.mpr ⟨e, he, rfl⟩
  | _ =>
    cases h
    rfl

/-- Only the end of a group needs a group around. -/
theorem Lexeme.eq_closing_of_step {l : Lexeme} {g : Group} {outer around : List Group}
    {x : Group × List Group} (h : l.step g outer = none)
    (h' : l.step g (outer ++ around) = some x) :
    l = .closing ∧ outer = [] := by
  cases l with
  | times min max =>
    rw [Lexeme.step, Option.map_eq_none_iff] at h
    rw [Lexeme.step, h] at h'
    cases h'
  | closing =>
    cases outer with
    | nil => exact ⟨rfl, rfl⟩
    | cons parent outer => cases h
  | bracket negated first inside =>
    rw [step_bracket, Option.map_eq_none_iff] at h
    rw [step_bracket, h] at h'
    cases h'
  | _ => cases h

/-- Once a pattern is read, what follows is read behind the group that it makes up. -/
theorem exists_group_of_readGroup {ls : List Lexeme} {g : Group} {outer : List Group}
    {e : Nested Expression} (h : readGroup ls g outer = some e) :
    ∃ g' : Group, g'.expression = e ∧ ∀ rest around,
      readGroup (ls ++ rest) g (outer ++ around) = readGroup rest g' around := by
  induction ls generalizing g outer with
  | nil =>
    cases outer with
    | nil =>
      cases h
      exact ⟨g, rfl, fun _ _ => rfl⟩
    | cons => cases h
  | cons l ls ih =>
    obtain ⟨x, hx, h⟩ := Option.bind_eq_some_iff.mp h
    obtain ⟨g', hg', hrest⟩ := ih h
    refine ⟨g', hg', fun rest around => ?_⟩
    rw [List.cons_append, readGroup, Lexeme.step_append hx]
    exact hrest rest around

/-! ## How deep what is read is nested -/

/-- Parts are nested at least as deep as each of them. -/
theorem le_depthOfParts {d : Nat} {depths : List Nat} (h : d ∈ depths) :
    d ≤ depthOfParts depths := by
  have hfold : d ≤ depths.foldr max 0 := by
    induction depths with
    | nil => cases h
    | cons d' depths ih =>
      rcases List.mem_cons.mp h with rfl | h
      · exact Nat.le_max_left _ _
      · exact Nat.le_trans (ih h) (Nat.le_max_right _ _)
  exact Nat.le_trans hfold (Nat.le_add_right _ _)

/-- Something in the group is nested at least so deep. -/
def Group.Deep (d : Nat) (g : Group) : Prop :=
  (∃ p ∈ g.pieces, d ≤ p.depth) ∨ ∃ a ∈ g.alternatives, d ≤ a.depth

namespace Group

variable {d : Nat} {g : Group}

/-- What was pushed last is in the group. -/
theorem Deep.push_self {e : Nested Expression} (h : d ≤ e.depth) : (g.push e).Deep d :=
  .inl ⟨_, List.mem_cons_self, h⟩

/-- Pushing a piece leaves the others in the group. -/
theorem Deep.push (h : g.Deep d) (e : Nested Expression) : (g.push e).Deep d :=
  h.imp_left fun ⟨p, hp, hd⟩ => ⟨p, List.mem_cons_of_mem _ hp, hd⟩

/-- Changing flags leaves the pieces in the group. -/
theorem Deep.set (h : g.Deep d) (changes : FlagChanges) : (g.set changes).Deep d :=
  h.imp_left fun ⟨p, hp, hd⟩ => ⟨p, List.mem_cons_of_mem _ hp, hd⟩

/-- A piece of the alternative since the last bar is nested no deeper than the alternative. -/
theorem le_lastAlternative {p : Nested (Option Expression)} (h : p ∈ g.pieces) :
    p.depth ≤ g.lastAlternative.depth :=
  le_depthOfParts (List.mem_map_of_mem (List.mem_reverse.mpr h))

/-- At a bar the pieces become an alternative. -/
theorem Deep.nextAlternative (h : g.Deep d) : g.nextAlternative.Deep d := by
  refine .inr ?_
  rcases h with ⟨p, hp, hd⟩ | ⟨a, ha, hd⟩
  · exact ⟨_, List.mem_cons_self, Nat.le_trans hd (le_lastAlternative hp)⟩
  · exact ⟨a, List.mem_cons_of_mem _ ha, hd⟩

/-- A repeated piece is nested deeper than before. -/
theorem Deep.repeatLast (h : g.Deep d) {min : Nat} {max : Option Nat} {g' : Group}
    (hg' : g.repeatLast min max = some g') : g'.Deep d := by
  obtain ⟨flags, alternatives, _ | ⟨⟨_ | e, depth⟩, pieces⟩⟩ := g
  · cases hg'
  · cases hg'
  · cases hg'
    rcases h with ⟨p, hp, hd⟩ | h
    · rcases List.mem_cons.mp hp with rfl | hp
      · exact .inl ⟨_, List.mem_cons_self, Nat.le_trans hd (Nat.le_succ _)⟩
      · exact .inl ⟨p, List.mem_cons_of_mem _ hp, hd⟩
    · exact .inr h

/-- A group is nested at least as deep as anything in it. -/
theorem Deep.le_expression (h : g.Deep d) : d ≤ g.expression.depth := by
  rcases h with ⟨p, hp, hd⟩ | ⟨a, ha, hd⟩
  · have hle := Nat.le_trans hd (le_lastAlternative hp)
    refine Nat.le_trans hle (le_depthOfParts (List.mem_map_of_mem ?_))
    exact List.mem_reverse.mpr List.mem_cons_self
  · refine Nat.le_trans hd (le_depthOfParts (List.mem_map_of_mem ?_))
    exact List.mem_reverse.mpr (List.mem_cons_of_mem _ ha)

end Group

/-- A lexeme leaves what is nested so deep in one of the groups that are open. -/
theorem Lexeme.step_deep {l : Lexeme} {g : Group} {outer : List Group} {x : Group × List Group}
    {d : Nat} (hx : l.step g outer = some x) (h : ∃ g' ∈ g :: outer, g'.Deep d) :
    ∃ g' ∈ x.1 :: x.2, g'.Deep d := by
  -- what is in the groups around stays there, unless one of them becomes the group that is read
  have hstay {g' : Group} (hdeep : g.Deep d → g'.Deep d) : ∃ g'' ∈ g' :: outer, g''.Deep d := by
    obtain ⟨g'', hmem, h⟩ := h
    rcases List.mem_cons.mp hmem with rfl | hmem
    · exact ⟨g', List.mem_cons_self, hdeep h⟩
    · exact ⟨g'', List.mem_cons_of_mem _ hmem, h⟩
  cases l with
  | bar =>
    cases hx
    exact hstay Group.Deep.nextAlternative
  | opening changes =>
    cases hx
    obtain ⟨g', hmem, h⟩ := h
    exact ⟨g', List.mem_cons_of_mem _ hmem, h⟩
  | closing =>
    cases outer with
    | nil => cases hx
    | cons parent outer =>
      cases hx
      obtain ⟨g', hmem, h⟩ := h
      rcases List.mem_cons.mp hmem with rfl | hmem
      · exact ⟨_, List.mem_cons_self, .push_self (Nat.le_succ_of_le h.le_expression)⟩
      · rcases List.mem_cons.mp hmem with rfl | hmem
        · exact ⟨_, List.mem_cons_self, h.push _⟩
        · exact ⟨g', List.mem_cons_of_mem _ hmem, h⟩
  | setting changes =>
    cases hx
    exact hstay fun h => h.set changes
  | times min max =>
    obtain ⟨g', hg', rfl⟩ := Option.map_eq_some_iff.mp hx
    exact hstay fun h => h.repeatLast hg'
  | bracket negated first inside =>
    obtain ⟨e, -, rfl⟩ := Option.map_eq_some_iff.mp hx
    exact hstay fun h => h.push e
  | _ =>
    cases hx
    exact hstay fun h => h.push _

/-- A pattern is nested at least as deep as what was in the groups before it was read. -/
theorem le_depth_of_readGroup {ls : List Lexeme} {g : Group} {outer : List Group}
    {e : Nested Expression} {d : Nat} (h : readGroup ls g outer = some e)
    (hdeep : ∃ g' ∈ g :: outer, g'.Deep d) : d ≤ e.depth := by
  induction ls generalizing g outer with
  | nil =>
    cases outer with
    | nil =>
      cases h
      obtain ⟨g', hmem, hdeep⟩ := hdeep
      obtain rfl := List.mem_singleton.mp hmem
      exact hdeep.le_expression
    | cons => cases h
  | cons l ls ih =>
    obtain ⟨x, hx, h⟩ := Option.bind_eq_some_iff.mp h
    exact ih h (Lexeme.step_deep hx hdeep)

/-! ## Groups that are open before a pattern -/

/-- The pattern closes a group that was open before it.  What stands before the parenthesis is a
pattern by itself, nested less deep. -/
theorem exists_inside_of_readGroup {cs : List Char} {ls : List Lexeme} (h : Lexes cs ls) {g : Group}
    {outer around : List Group} (haround : around ≠ []) {e : Nested Expression}
    (hread : readGroup ls g (outer ++ around) = some e) :
    ∃ inside behind ls' e', cs = inside ++ ')' :: behind ∧ Lexes inside ls' ∧
      readGroup ls' g outer = some e' ∧ e'.depth < e.depth := by
  induction h generalizing g outer with
  | nil =>
    rcases outer with _ | ⟨parent, outer⟩
    · obtain ⟨parent, around, rfl⟩ := List.exists_cons_of_ne_nil haround
      cases hread
    · cases hread
  | @cons cs rest l ls first _ ih =>
    obtain ⟨x, hx, hread⟩ := Option.bind_eq_some_iff.mp hread
    rcases hstep : l.step g outer with _ | y
    · -- the parenthesis closes the group
      obtain ⟨rfl, rfl⟩ := Lexeme.eq_closing_of_step hstep hx
      obtain ⟨parent, around, rfl⟩ := List.exists_cons_of_ne_nil haround
      cases hx
      refine ⟨[], rest, [], g.expression, eq_of_lexeme_closing first, .nil, rfl, ?_⟩
      exact le_depth_of_readGroup hread ⟨_, List.mem_cons_self, .push_self (Nat.le_refl _)⟩
    · rw [Lexeme.step_append hstep] at hx
      cases hx
      obtain ⟨inside, behind, ls', e', rfl, hls', hread', hlt⟩ := ih hread
      -- the lexeme is read the same if the text ends before the parenthesis
      obtain ⟨read, rfl⟩ := lexeme_suffix first
      rw [← List.append_assoc] at first
      refine ⟨read ++ inside, behind, l :: ls', e', by rw [List.append_assoc],
        .cons (lexeme_append_iff.mp first) hls', ?_, hlt⟩
      rw [readGroup, hstep]
      exact hread'

/-! ## Whole patterns -/

/-- A pattern is read lexeme by lexeme. -/
theorem Expression.read?_eq_some_iff {source : List Char} {e : Nested Expression} :
    Expression.read? source = some e ↔
      ∃ ls, Lexes source ls ∧ readGroup ls (Group.start .none) [] = some e := by
  unfold Expression.read?
  simp only [Option.bind_eq_some_iff, lexemes_eq_some_iff]

/-- A parenthesis behind a pattern closes no group, so that what goes on with it is ill-formed. -/
theorem Expression.read?_append_closing {source : List Char} {e : Nested Expression}
    (h : Expression.read? source = some e) (behind : List Char) :
    Expression.read? (source ++ ')' :: behind) = none := by
  obtain ⟨ls, hls, hread⟩ := Expression.read?_eq_some_iff.mp h
  rw [Option.eq_none_iff_forall_ne_some]
  intro e' he'
  obtain ⟨ls', hls', hread'⟩ := Expression.read?_eq_some_iff.mp he'
  obtain ⟨ls'', rfl, hclosing⟩ := hls.of_append hls'
  obtain ⟨g, -, hrest⟩ := exists_group_of_readGroup hread
  have hnone := hrest ls'' []
  rw [List.append_nil, hread'] at hnone
  cases hclosing with
  | cons first _ =>
    cases first
    cases hnone

end ResumableParsing
