/-
# Descents that approximate one another

A rule is unfolded only to a given depth, and where the depth is used up the descent comes to
nothing.  A deeper unfolding comes to something more often, and where both come to something it is
the same.  Every construction passes this from its parts to the whole.
-/
import ResumableParsing.Proofs.Descent.Choice
import ResumableParsing.Proofs.Descent.Repetition

namespace ResumableParsing.Descent

variable {ι α β : Type}

/-- Where the first descent comes to something, the second comes to the same. -/
def Approximates (d d' : Descent ι α) : Prop :=
  ∀ ⦃c n : Nat⦄ ⦃res : Except (Failure ι) α⦄, d c = some (res, n) → d' c = some (res, n)

theorem Approximates.refl (d : Descent ι α) : d.Approximates d := fun _ _ _ h => h

/-- A descent that comes to nothing approximates every descent. -/
theorem approximates_of_nothing (d : Descent ι α) :
    Approximates (fun _ => none) d := fun _ _ _ h => nomatch h

variable {p p' : Descent ι α}

/-! ## One after the other -/

/-- What has come to an end has done so in both halves, and goes the same way in both. -/
theorem Approximates.bind {f f' : α → Descent ι β} (hp : p.Approximates p')
    (hf : ∀ a, (f a).Approximates (f' a)) : (p.bind f).Approximates (p'.bind f') := by
  intro c n res h
  rw [bind_eq_some_iff] at h ⊢
  rcases h with ⟨a, k, ha, hk⟩ | ⟨e, he, hres⟩
  · exact .inl ⟨a, k, hp ha, hf a hk⟩
  · exact .inr ⟨e, hp he, hres⟩

/-- A change of the output takes no part. -/
theorem Approximates.map (hp : p.Approximates p') (f : α → β) :
    (p.map f).Approximates (p'.map f) :=
  hp.bind fun a => .refl (pure (f a))

/-- A list of descents is approximated one by one. -/
theorem approximates_all {ps ps' : List (Descent ι α)} (h : List.Forall₂ Approximates ps ps') :
    (all ps).Approximates (all ps') := by
  induction h with
  | nil => exact .refl _
  | cons hp _ ih => exact hp.bind fun a => ih.map _

/-- The handler is told the same failure in the same place. -/
theorem Approximates.rescue {f f' : Failure ι → Descent ι α} (hp : p.Approximates p')
    (hf : ∀ e, (f e).Approximates (f' e)) : (p.rescue f).Approximates (p'.rescue f') := by
  intro c n res h
  rw [rescue_eq_some_iff] at h ⊢
  rcases h with ⟨a, ha, hres⟩ | ⟨e, k, he, hk⟩
  · exact .inl ⟨a, hp ha, hres⟩
  · refine .inr ⟨e, k, hp he, ?_⟩
    split at hk
    · rwa [if_pos ‹_›]
    · rw [if_neg ‹_›]
      exact hf e hk

/-- A change of the failure takes no part. -/
theorem Approximates.changeFailure (hp : p.Approximates p') (f : Failure ι → Failure ι) :
    (p.changeFailure f).Approximates (p'.changeFailure f) := by
  intro c n res h
  rw [changeFailure_eq_some_iff] at h ⊢
  obtain ⟨x, hx, hres⟩ := h
  exact ⟨x, hp hx, hres⟩

/-! ## Choice -/

/-- If every alternative before the one that succeeds has come to an end, it is the same one. -/
theorem approximates_firstOf {ps ps' : List (Descent ι α)} (h : List.Forall₂ Approximates ps ps')
    {c n : Nat} {failed : List (Failure ι × Nat)} {res : Except (Failure ι) α}
    (hfirst : firstOf c failed ps = some (res, n)) : firstOf c failed ps' = some (res, n) := by
  induction h generalizing failed with
  | nil => exact hfirst
  | cons hp _ ih =>
    rw [firstOf_cons_eq_some_iff] at hfirst ⊢
    rcases hfirst with ⟨a, ha, hres⟩ | ⟨e, k, he, hk⟩
    · exact .inl ⟨a, hp ha, hres⟩
    · refine .inr ⟨e, k, hp he, ?_⟩
      split at hk
      · rwa [if_pos ‹_›]
      · rw [if_neg ‹_›]
        exact ih hk

/-- A choice is approximated if each of its alternatives is. -/
theorem approximates_choice {ps ps' : List (Descent ι α)} (h : List.Forall₂ Approximates ps ps') :
    (choice ps).Approximates (choice ps') := fun _ _ _ => approximates_firstOf h

/-! ## Repetition -/

/-- What follows an optional run starts where the run ended. -/
theorem Approximates.attempt (hp : p.Approximates p') {f f' : Nat → Descent ι (List α)}
    (hf : ∀ c, (f c).Approximates (f' c)) : (p.attempt f).Approximates (p'.attempt f') := by
  intro c n res h
  rw [attempt_eq_some_iff] at h ⊢
  rcases h with ⟨a, k, ha, hk⟩ | ⟨e, k, he, hk⟩
  · exact .inl ⟨a, k, hp ha, (hf c).map _ hk⟩
  · exact .inr ⟨e, k, hp he, hk⟩

/-- Runs that must succeed are approximated one by one. -/
theorem approximates_exactly (hp : p.Approximates p') (left : Nat) :
    (p.exactly left).Approximates (p'.exactly left) := by
  induction left with
  | zero => exact .refl _
  | succ left ih => exact hp.bind fun a => ih.map _

/-- A bounded number of runs is approximated one by one. -/
theorem approximates_upTo (hp : p.Approximates p') (room : Nat) :
    (p.upTo room).Approximates (p'.upTo room) := by
  induction room with
  | zero => exact .refl _
  | succ room ih => exact hp.attempt fun _ => ih

/-- Runs that go on until one takes nothing are approximated one by one. -/
theorem approximates_untilStill (hp : p.Approximates p') (rounds : Nat) :
    (p.untilStill rounds).Approximates (p'.untilStill rounds) := by
  induction rounds with
  | zero => exact .refl _
  | succ rounds ih =>
    refine hp.attempt fun c k n res h => ?_
    by_cases hk : k = c
    · rwa [if_pos hk] at h ⊢
    · rw [if_neg hk] at h ⊢
      exact ih h

/-- A repetition is approximated if its runs are. -/
theorem Approximates.repetition (hp : p.Approximates p') (w : Setting ι) (min : Nat)
    (max : Option Nat) : (p.repetition w min max).Approximates (p'.repetition w min max) := by
  refine (approximates_exactly hp min).bind fun as => Approximates.map ?_ _
  cases max with
  | none => exact approximates_untilStill hp _
  | some max => exact approximates_upTo hp _

end ResumableParsing.Descent
