/-
# Repetition by sessions

An engine that parses a whole input runs a computation again and again, each time in a new session
that begins where the one before has ended.  A repetition without a bound does the same within one
session.  If the sessions all come to an output, each run of the repetition begins where one of
them began; and if the computation fails recoverably where nothing is left, the repetition notices
this at the end, returns there, and puts out what the sessions have put out.
-/
import ResumableParsing.Proofs.Engine.Independence

namespace ResumableParsing

variable {ρ : Type → Type} {ι ν ο : Type}

/-! ## Optional runs -/

namespace Descent

variable {d : Descent ι ο} {rounds c k n : Nat}

/-- A recoverable failure ends the runs where it began. -/
theorem untilStill_of_error {f : Failure ι} (hrun : d c = some (.error f, k))
    (hf : f.isFatal = false) : d.untilStill (rounds + 1) c = some (.ok [], c) := by
  refine attempt_eq_some_iff.mpr (.inr ⟨f, k, hrun, ?_⟩)
  rw [if_neg (by simp [hf])]
  exact ⟨rfl, rfl⟩

/-- A run that takes something is followed by the others. -/
theorem untilStill_of_ok {o : ο} {outs : List ο} (hrun : d c = some (.ok o, k)) (hmoved : k ≠ c)
    (hothers : d.untilStill rounds k = some (.ok outs, n)) :
    d.untilStill (rounds + 1) c = some (.ok (o :: outs), n) := by
  refine attempt_eq_some_iff.mpr (.inl ⟨o, k, hrun, ?_⟩)
  refine map_eq_some_iff.mpr ⟨.ok outs, ?_, rfl⟩
  rw [if_neg hmoved]
  exact hothers

end Descent

/-! ## Sessions as runs -/

namespace Machine

variable {m : Machine ι ν ο} {xs : List ι} {id c n : Nat} {ds : List (Engine.Delivery ι ο)}
  {f : Failure ι}

/-- Behind the first session nothing is delivered where nothing is left. -/
theorem Sessions.eq_nil (hs : m.Sessions xs id c ds) (hid : 0 < id) (hc : xs.length ≤ c) :
    ds = [] := by
  cases hs with
  | exhausted later => rfl
  | silent may | failure may | output may => omega
  | still left => omega

/-- If the parse of an empty input fails, its only session fails. -/
theorem Sessions.yields_of_nil (hs : m.Sessions [] 0 0 ds)
    (hds : gather ds = .error (.failure f n)) : m.Yields ⟨[], true, 0, 0⟩ 0 (.error f) n := by
  cases hs with
  | exhausted later => exact absurd later (Nat.lt_irrefl 0)
  | silent may completes => cases hds
  | failure may yields =>
    cases hds
    exact yields
  | still left => exact absurd left (Nat.lt_irrefl 0)
  | output may asks yields progress rest =>
    rw [rest.eq_nil (Nat.succ_pos 0) (Nat.zero_le _)] at hds
    cases hds

/-- Neither the number of a session nor where it began matters for what it yields. -/
theorem Portable.yields_iff_first (hm : m.Portable) (hc : c ≤ xs.length)
    {res : Except (Failure ι) ο} :
    m.Yields ⟨xs, true, id, c⟩ c res n ↔ m.Yields ⟨xs, true, 0, 0⟩ c res n := by
  have hw : Setting.Displaced ⟨xs, true, id, c⟩ ⟨xs, true, 0, 0⟩ 0 := ⟨rfl, Nat.zero_le _, rfl⟩
  refine (hm hw (Nat.le_refl c) ⟨Nat.zero_le c, hc⟩).trans ?_
  constructor
  · rintro ⟨n', hyields, rfl⟩
    exact hyields
  · intro hyields
    exact ⟨n, hyields, rfl⟩

/-- A failure on the empty input is the failure where nothing is left of another input. -/
theorem Portable.yields_length (hm : m.Portable) {res : Except (Failure ι) ο}
    (h : m.Yields ⟨[], true, 0, 0⟩ 0 res n) :
    m.Yields ⟨xs, true, 0, 0⟩ xs.length res (n + xs.length) := by
  have hw : Setting.Displaced ⟨xs, true, 0, 0⟩ ⟨[], true, 0, 0⟩ xs.length :=
    ⟨List.drop_length.symm, Nat.le_refl _, rfl⟩
  have hiff : m.Yields ⟨xs, true, 0, 0⟩ (0 + xs.length) res (n + xs.length) ↔ _ :=
    hm hw (Nat.zero_le _) ⟨Nat.le_refl 0, Nat.le_refl 0⟩
  rw [Nat.zero_add] at hiff
  exact hiff.mpr ⟨n, h, rfl⟩

/-- If the sessions put out something each and there is a recoverable failure where nothing is left,
then optional runs put out the same. -/
theorem Sessions.untilStill {d : Descent ι ο} {outs : List ο} (hs : m.Sessions xs id c ds)
    (hds : ds = outs.map .ok) (hm : m.Portable) (hd : m.Realizes ⟨xs, true, 0, 0⟩ d)
    (hend : d xs.length = some (.error f, n)) (hf : f.isFatal = false) (hc : c ≤ xs.length)
    {rounds : Nat} (hrounds : xs.length < c + rounds) :
    d.untilStill rounds c = some (.ok outs, xs.length) := by
  -- each session is one run, so the induction is on the sessions
  induction hs generalizing outs rounds with
  | exhausted later =>
    obtain ⟨rounds, rfl⟩ : ∃ r, rounds = r + 1 := Nat.exists_eq_add_one.mpr (by omega)
    obtain rfl : outs = [] := List.map_eq_nil_iff.mp hds.symm
    exact Descent.untilStill_of_error hend hf
  | silent | failure | still =>
    have hmem : .error _ ∈ outs.map (.ok : ο → Engine.Delivery ι ο) :=
      hds ▸ List.mem_singleton_self _
    obtain ⟨o, -, ho⟩ := List.mem_map.mp hmem
    cases ho
  | @output id c k o ds may asks yields progress rest ih =>
    obtain ⟨rounds, rfl⟩ : ∃ r, rounds = r + 1 := Nat.exists_eq_add_one.mpr (by omega)
    cases outs with
    | nil => cases hds
    | cons o' outs =>
      obtain ⟨ho, hrest⟩ := List.cons.inj hds
      cases ho
      have hrun : d c = some (.ok o, k) :=
        (hd.yields_iff ⟨Nat.zero_le c, hc⟩).mp ((hm.yields_iff_first hc).mp yields)
      have hk : c ≤ k ∧ k ≤ xs.length := hd.forward hc hrun
      -- where nothing is left the run would have failed
      have hleft : c ≠ xs.length := by
        rintro rfl
        rw [hend] at hrun
        cases hrun
      have hothers : d.untilStill rounds k = some (.ok outs, xs.length) :=
        ih hrest hk.2 (by omega)
      exact Descent.untilStill_of_ok hrun (by omega) hothers

end Machine

/-! ## Grammars without tokens -/

namespace Grammar

/-- Repeating by sessions agrees with repeating in one session.  If a grammar without tokens fails
recoverably on the empty input, and an input is parsed to outputs, one a session, then the
repetition of the grammar parses the input to the one list of these outputs. -/
theorem many_gathers_sessions {rules : RuleBook ρ ι ν} (hrules : rules.Tokenless)
    {g : Grammar ρ ι ν ο} (hg : g.Tokenless) (depth : Nat) {b n : Nat} {f : Failure ι}
    {noted : List ν}
    (hempty : parseAll (g.parser rules depth) b [] = some (.error (.failure f n), noted))
    (hf : f.isFatal = false) {xs : List ι} {b' : Nat} {outs : List ο} {noted' : List ν}
    (hall : parseAll (g.parser rules depth) b' xs = some (.ok outs, noted')) :
    ∃ k notes, ∀ budget, k < budget →
      parseAll (g.many.parser rules depth) budget xs = some (.ok [outs], notes) := by
  have hfaithful := parser_faithful hrules.plain depth hg.plain
  have hportable := parser_portable hrules depth hg
  have hrealizes := parser_realizes (w := ⟨xs, true, 0, 0⟩) hrules.plain depth hg.plain
  -- where nothing is left the grammar fails as it does on the empty input
  obtain ⟨ds, hs, hds⟩ := History.exists_sessions_of_parseAll hfaithful hempty
  have hend := (hrealizes.yields_iff ⟨Nat.zero_le _, Nat.le_refl _⟩).mp
    (hportable.yields_length (hs.yields_of_nil hds))
  obtain ⟨ds', hs', hds'⟩ := History.exists_sessions_of_parseAll hfaithful hall
  have hruns : (g.descend ⟨xs, true, 0, 0⟩ rules depth).untilStill (xs.length + 1) 0 =
      some (.ok outs, xs.length) :=
    hs'.untilStill (gather_eq_ok hds') hportable hrealizes hend hf (Nat.zero_le _) (by omega)
  have hmany : g.many.descend ⟨xs, true, 0, 0⟩ rules depth 0 = some (.ok outs, xs.length) := by
    show ((g.descend ⟨xs, true, 0, 0⟩ rules depth).untilStill (xs.length + 1)).map ([] ++ ·) 0 = _
    exact Descent.map_eq_some_iff.mpr ⟨.ok outs, hruns, rfl⟩
  have hyields : (g.many.parser rules depth).Yields ⟨xs, true, 0, 0⟩ 0 (.ok outs) xs.length :=
    ((parser_realizes hrules.plain depth (g := g.many) hg.plain).yields_iff
      ⟨Nat.le_refl 0, Nat.zero_le _⟩).mpr hmany
  -- the one session of the repetition takes everything, so there is no other
  exact History.parseAll_of_sessions
    (.output (.inl rfl) ⟨.snapshot, rfl⟩ hyields (.inr rfl) (.exhausted (Nat.succ_pos 0)))

/-- Two records are put out one by one by two sessions, and together by one repetition. -/
theorem many_gathers_records :
    let f : Failure Char := .aggregate [.endOfInput "a", .endOfInput "a"]
    parseAll (twoWords.parser noRules 0) 20 [] = some (.error (.failure f 0), []) ∧
      f.isFatal = false ∧
      parseAll (twoWords.parser noRules 0) 40 ['a', 'c', 'a', 'b'] =
        some (.ok [('a', 'c'), ('a', 'b')], []) ∧
      ∃ k notes, ∀ budget, k < budget →
        parseAll (twoWords.many.parser noRules 0) budget ['a', 'c', 'a', 'b'] =
          some (.ok [[('a', 'c'), ('a', 'b')]], notes) := by
  intro f
  have hempty : parseAll (twoWords.parser noRules 0) 20 [] = some (.error (.failure f 0), []) := rfl
  have hf : f.isFatal = false := rfl
  have hall : parseAll (twoWords.parser noRules 0) 40 ['a', 'c', 'a', 'b'] =
      some (.ok [('a', 'c'), ('a', 'b')], []) := rfl
  exact ⟨hempty, hf, hall,
    many_gathers_sessions tokenless_noRules tokenless_twoWords 0 hempty hf hall⟩

end Grammar

end ResumableParsing
