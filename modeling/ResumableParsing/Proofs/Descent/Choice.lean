/-
# Direct style for ordered choice

The choice in direct style tries each descent from the same place.  If all fail, it leaves the
cursor at the furthest place that any of them got to, with the failures that arose there.  The
choice between machines finds that place by taking a token after every failure and comparing it with
the best so far; `Sums` says that its record is always that of the failures it has seen.
-/
import Mathlib.Data.List.Forall2
import ResumableParsing.Machine.Choice
import ResumableParsing.Proofs.Descent.Sequencing

namespace ResumableParsing

variable {ι ν α : Type}

/-! ## The furthest of several failures -/

/-- The furthest place that any of the failures got to. -/
def reach (failed : List (Failure ι × Nat)) : Nat := (failed.map Prod.snd).foldr max 0

/-- The failures that got to a place, in order. -/
def failuresAt (failed : List (Failure ι × Nat)) (k : Nat) : List (Failure ι) :=
  (failed.filter fun f => f.2 = k).map Prod.fst

/-- A failure that stands alone speaks for itself; several are gathered. -/
def together : List (Failure ι) → Failure ι
  | [e] => e
  | es => .aggregate es

/-- Several failures put together are an aggregate, and one alone is itself. -/
theorem together_cases {es : List (Failure ι)} (h : es ≠ []) :
    es = [together es] ∨ 2 ≤ es.length ∧ together es = ⟨.aggregate es, .recoverable, none⟩ := by
  match es, h with
  | [e], _ => exact .inl rfl
  | e :: e' :: es, _ => exact .inr ⟨by simp, rfl⟩

@[simp] theorem reach_nil : reach ([] : List (Failure ι × Nat)) = 0 := rfl

/-- A further failure is the furthest or leaves the furthest place as it is. -/
theorem reach_concat (failed : List (Failure ι × Nat)) (e : Failure ι) (k : Nat) :
    reach (failed ++ [(e, k)]) = max (reach failed) k := by
  unfold reach
  induction failed with
  | nil => simp
  | cons f failed ih =>
    rw [List.cons_append, List.map_cons, List.foldr_cons, ih, List.map_cons, List.foldr_cons]
    omega

/-- No failure is further than the furthest. -/
theorem le_reach {failed : List (Failure ι × Nat)} {f : Failure ι × Nat} (hf : f ∈ failed) :
    f.2 ≤ reach failed := by
  unfold reach
  induction failed with
  | nil => simp at hf
  | cons g failed ih =>
    rw [List.map_cons, List.foldr_cons]
    rcases List.mem_cons.mp hf with rfl | hf
    · exact Nat.le_max_left _ _
    · exact Nat.le_trans (ih hf) (Nat.le_max_right _ _)

/-- Some failure got to the furthest place. -/
theorem exists_mem_reach {failed : List (Failure ι × Nat)} (h : failed ≠ []) :
    ∃ f ∈ failed, f.2 = reach failed := by
  unfold reach
  induction failed with
  | nil => exact absurd rfl h
  | cons g failed ih =>
    rw [List.map_cons, List.foldr_cons]
    by_cases hg : (failed.map Prod.snd).foldr max 0 ≤ g.2
    · exact ⟨g, List.mem_cons_self, (Nat.max_eq_left hg).symm⟩
    · -- the first is not the furthest, so there are more
      have hne : failed ≠ [] := by
        rintro rfl
        simp at hg
      obtain ⟨f, hf, hreach⟩ := ih hne
      refine ⟨f, List.mem_cons_of_mem g hf, ?_⟩
      rw [hreach]
      omega

/-- The furthest place is one that a failure got to. -/
theorem within_reach {w : Setting ι} {failed : List (Failure ι × Nat)} (h : failed ≠ [])
    (hfailed : ∀ f ∈ failed, w.Within f.2) : w.Within (reach failed) := by
  obtain ⟨f, hf, hreach⟩ := exists_mem_reach h
  rw [← hreach]
  exact hfailed f hf

/-- A further failure comes last among those of its place. -/
theorem failuresAt_concat (failed : List (Failure ι × Nat)) (e : Failure ι) (j k : Nat) :
    failuresAt (failed ++ [(e, j)]) k = failuresAt failed k ++ if j = k then [e] else [] := by
  unfold failuresAt
  rw [List.filter_append, List.map_append]
  by_cases h : j = k <;> simp [h]

/-- Some failure arose at the furthest place. -/
theorem failuresAt_reach_ne_nil {failed : List (Failure ι × Nat)} (h : failed ≠ []) :
    failuresAt failed (reach failed) ≠ [] := by
  obtain ⟨f, hf, hreach⟩ := exists_mem_reach h
  unfold failuresAt
  rw [← hreach]
  exact List.ne_nil_of_mem (List.mem_map_of_mem (List.mem_filter.mpr ⟨hf, by simp⟩))

/-- No failure is beyond the furthest. -/
theorem failuresAt_eq_nil {failed : List (Failure ι × Nat)} {k : Nat} (h : reach failed < k) :
    failuresAt failed k = [] := by
  unfold failuresAt
  rw [List.map_eq_nil_iff, List.filter_eq_nil_iff]
  intro f hf
  have := le_reach hf
  simp only [decide_eq_true_eq]
  omega

/-! ## The choice in direct style -/

namespace Descent

/-- What it comes to when every alternative failed. -/
def giveUp (c : Nat) (failed : List (Failure ι × Nat)) : Except (Failure ι) α × Nat :=
  (.error (together (failuresAt failed (reach failed))),
    if failed.isEmpty then c else reach failed)

/-- Try alternatives from the same place, after others have failed. -/
def firstOf (c : Nat) : List (Failure ι × Nat) → List (Descent ι α) →
    Option (Except (Failure ι) α × Nat)
  | failed, [] => some (giveUp c failed)
  | failed, p :: ps =>
    match p c with
    | none => none
    | some (.ok a, k) => some (.ok a, k)
    | some (.error e, k) =>
      if e.isFatal then some (.error e, k) else firstOf c (failed ++ [(e, k)]) ps

/-- The first alternative that does not fail, or fails fatally. -/
def choice (ps : List (Descent ι α)) : Descent ι α := fun c => firstOf c [] ps

/-- The first alternative decides a choice, or is recorded and leaves it to the others. -/
theorem firstOf_cons_eq_some_iff {p : Descent ι α} {ps : List (Descent ι α)}
    {failed : List (Failure ι × Nat)} {c n : Nat} {res : Except (Failure ι) α} :
    firstOf c failed (p :: ps) = some (res, n) ↔
      (∃ a, p c = some (.ok a, n) ∧ res = .ok a) ∨
        ∃ e k, p c = some (.error e, k) ∧
          if e.isFatal then res = .error e ∧ n = k
          else firstOf c (failed ++ [(e, k)]) ps = some (res, n) := by
  rw [firstOf]
  rcases p c with _ | ⟨_ | _, _⟩ <;> grind

variable {w : Setting ι}

/-- A choice ends where an alternative does, or at the furthest place that was recorded. -/
theorem forward_firstOf {ps : List (Descent ι α)} (hps : ∀ p ∈ ps, p.Forward w)
    {failed : List (Failure ι × Nat)} {c n : Nat} {res : Except (Failure ι) α}
    (hc : c ≤ w.items.length) (hfailed : ∀ f ∈ failed, c ≤ f.2 ∧ f.2 ≤ w.items.length)
    (h : firstOf c failed ps = some (res, n)) : c ≤ n ∧ n ≤ w.items.length := by
  induction ps generalizing failed with
  | nil =>
    cases h
    by_cases hne : failed = []
    · rw [if_pos (by simp [hne])]
      exact ⟨Nat.le_refl _, hc⟩
    · obtain ⟨f, hf, hreach⟩ := exists_mem_reach hne
      rw [if_neg (by simp [hne]), ← hreach]
      exact hfailed f hf
  | cons p ps ih =>
    have hp : p.Forward w := hps p List.mem_cons_self
    rcases firstOf_cons_eq_some_iff.mp h with ⟨a, ha, -⟩ | ⟨e, k, he, hk⟩
    · exact hp hc ha
    · split at hk
      · rw [hk.2]
        exact hp hc he
      · refine ih (fun q hq => hps q (List.mem_cons_of_mem p hq)) (fun f hf => ?_) hk
        rcases List.mem_append.mp hf with hf | hf
        · exact hfailed f hf
        · cases List.mem_singleton.mp hf
          exact hp hc he

/-- No alternative moves back, and so neither does a choice. -/
theorem forward_choice {ps : List (Descent ι α)} (hps : ∀ p ∈ ps, p.Forward w) :
    (choice ps).Forward w :=
  fun _ _ _ hc h => forward_firstOf hps hc (by simp) h

end Descent

/-! ## The record of a choice between machines -/

/-- The record is that of the failures. -/
def Furthest.Sums (w : Setting ι) : Option (Furthest ι) → List (Failure ι × Nat) → Prop
  | none, failed => failed = []
  | some g, failed => failed ≠ [] ∧ g.token = ⟨w.session, reach failed⟩ ∧
      g.failures = failuresAt failed (reach failed)

/-- Counting in one more failure keeps the record that of all. -/
theorem Furthest.Sums.record {w : Setting ι} {best : Option (Furthest ι)}
    {failed : List (Failure ι × Nat)} (h : Sums w best failed) (e : Failure ι) (k : Nat) :
    Sums w (some (record best ⟨w.session, k⟩ e)) (failed ++ [(e, k)]) := by
  refine ⟨by simp, ?_⟩
  rw [reach_concat, failuresAt_concat]
  cases best with
  | none =>
    cases h
    simp [Furthest.record, failuresAt]
  | some g =>
    obtain ⟨-, htoken, hfailures⟩ := h
    simp only [Furthest.record, htoken]
    rcases Nat.lt_trichotomy k (reach failed) with hk | hk | hk
    -- a failure behind the furthest is dropped, one as far is added, one beyond takes their place
    · rw [if_neg (by omega), if_pos hk, Nat.max_eq_left (by omega), if_neg (by omega)]
      simp [htoken, hfailures]
    · rw [if_pos hk, Nat.max_eq_left (by omega), if_pos hk]
      simp [hfailures]
    · rw [if_neg (by omega), if_neg (by omega), Nat.max_eq_right (by omega), if_pos rfl,
        failuresAt_eq_nil hk]
      simp

theorem Furthest.failure_eq_together (g : Furthest ι) : g.failure = together g.failures := by
  unfold Furthest.failure together
  rfl

/-! ## The choice between machines -/

namespace Machine

variable {w : Setting ι} {ps : List (Machine ι ν α)} {ds : List (Descent ι α)} {c k n : Nat}
  {res : Except (Failure ι) α}

/-- A turn of a running alternative, as it looks from outside. -/
def alternativeTurn (ps : List (Machine ι ν α)) (initial : Token) (best : Option (Furthest ι))
    (i : Fin ps.length) (t : Turn (ps.get i).State ι ν α) : Turn (choice ps).State ι ν α :=
  Choosing.ofTurn initial best i t

/-- The turn in which an alternative has failed and the choice asks how far it got. -/
def measuringTurn (ps : List (Machine ι ν α)) (initial : Token) (best : Option (Furthest ι))
    (i : Fin ps.length) (e : Failure ι) : Turn (choice ps).State ι ν α :=
  ⟨.measuring initial best i e, .suspend .snapshot, []⟩

/-- While an alternative runs, the turns of the choice are those of the alternative. -/
theorem alternativeTurn_suspends (initial : Token) (best : Option (Furthest ι))
    (i : Fin ps.length) (t : Turn (ps.get i).State ι ν α) (q : Request)
    (h : t.resumed = .suspend q) :
    (alternativeTurn ps initial best i t).resumed = .suspend q ∧
      (alternativeTurn ps initial best i t).notes = t.notes ∧
      ∀ r, (choice ps).resume (alternativeTurn ps initial best i t).state (some r) =
        alternativeTurn ps initial best i ((ps.get i).resume t.state (some r)) := by
  unfold alternativeTurn Choosing.ofTurn
  rw [h]
  exact ⟨rfl, rfl, fun r => rfl⟩

/-- A failure that was measured is recorded, and the choice returns to where it began. -/
theorem resume_measuring_of_lt (initial reached : Token) (best : Option (Furthest ι))
    (i : Fin ps.length) (e : Failure ι) (h : i.val + 1 < ps.length) :
    (choice ps).resume (measuringTurn ps initial best i e).state (some (.token reached)) =
      ⟨.returning initial (Furthest.record best reached e) ⟨i + 1, h⟩,
        .suspend (.rollback initial), []⟩ :=
  dif_pos h

/-- When the last failure was measured, the choice goes to the furthest place. -/
theorem resume_measuring_of_not_lt (initial reached : Token) (best : Option (Furthest ι))
    (i : Fin ps.length) (e : Failure ι) (h : ¬ i.val + 1 < ps.length) :
    (choice ps).resume (measuringTurn ps initial best i e).state (some (.token reached)) =
      ⟨.settling (Furthest.record best reached e),
        .suspend (.rollback (Furthest.record best reached e).token), []⟩ :=
  dif_neg h

/-- A choice asks where it begins. -/
theorem choice_start (hps : 0 < ps.length) :
    (choice ps).start = ⟨.opening, .suspend .snapshot, []⟩ :=
  if_neg (by simpa using List.ne_nil_of_length_pos hps)

/-- Once a choice knows where it begins, it runs its first alternative. -/
theorem choice_opening (hps : 0 < ps.length) (initial : Token) :
    (choice ps).resume .opening (some (.token initial)) =
      alternativeTurn ps initial none ⟨0, hps⟩ (ps.get ⟨0, hps⟩).start :=
  dif_pos hps

/-- While an alternative runs, the choice does what the alternative does. -/
theorem ends_alternative (initial : Token) (best : Option (Furthest ι)) (i : Fin ps.length)
    (t : Turn (ps.get i).State ι ν α) :
    (choice ps).Ends w (alternativeTurn ps initial best i t) c res n ↔
      (∃ a, (ps.get i).Ends w t c (.ok a) n ∧ res = .ok a) ∨
        ∃ e k, (ps.get i).Ends w t c (.error e) k ∧
          if e.isFatal then res = .error e ∧ n = k
          else (choice ps).Ends w (measuringTurn ps initial best i e) k res n := by
  refine Iff.trans (ends_phase (m := choice ps) (p := ps.get i) (alternativeTurn ps initial best i)
    (fun a k res n => res = .ok a ∧ n = k)
    (fun e k res n => if e.isFatal then res = .error e ∧ n = k
      else (choice ps).Ends w (measuringTurn ps initial best i e) k res n)
    (fun t q h => ?_) (fun t a c res n h => ?_) (fun t e c res n h => ?_)) ?_
  · obtain ⟨hasks, -, hresume⟩ := alternativeTurn_suspends initial best i t q h
    exact ⟨hasks, fun r => .of_eq (hresume r)⟩
  · unfold alternativeTurn Choosing.ofTurn
    rw [h]
    exact ends_iff_of_complete rfl
  · unfold alternativeTurn Choosing.ofTurn
    rw [h]
    by_cases he : e.isFatal
    · simp only [if_pos he]
      exact ends_iff_of_fail rfl
    · simp only [if_neg he]
      have halike : Turn.Alike (⟨.measuring initial best i e, .suspend .snapshot, t.notes⟩ :
        Turn (choice ps).State ι ν α) (measuringTurn ps initial best i e) := ⟨rfl, rfl⟩
      exact ends_congr halike
  · exact or_congr (exists_congr fun a => exists_place_iff) Iff.rfl

/-- After a failure the choice measures how far it got, and goes on with the next alternative where
the choice began. -/
theorem ends_measuring_of_lt (hc : w.Within c) (best : Option (Furthest ι)) (i : Fin ps.length)
    (e : Failure ι) (h : i.val + 1 < ps.length) :
    (choice ps).Ends w (measuringTurn ps ⟨w.session, c⟩ best i e) k res n ↔
      (choice ps).Ends w (alternativeTurn ps ⟨w.session, c⟩
        (some (Furthest.record best ⟨w.session, k⟩ e)) ⟨i + 1, h⟩
        (ps.get ⟨i + 1, h⟩).start) c res n := by
  rw [ends_iff_of_respond rfl (Setting.respond_snapshot w k),
    resume_measuring_of_lt _ _ _ _ _ h, ends_iff_of_respond rfl (Setting.respond_rollback hc k)]
  rfl

/-- After the last failure the choice goes to the furthest place and fails there. -/
theorem ends_measuring_of_not_lt (initial : Token) (best : Option (Furthest ι))
    (i : Fin ps.length) (e : Failure ι) (h : ¬ i.val + 1 < ps.length)
    {failed : List (Failure ι × Nat)} (hbest : Furthest.Sums w best failed)
    (hfailed : ∀ f ∈ failed ++ [(e, k)], w.Within f.2) :
    (choice ps).Ends w (measuringTurn ps initial best i e) k res n ↔
      (res, n) = Descent.giveUp c (failed ++ [(e, k)]) := by
  obtain ⟨hne, htoken, hfailures⟩ := hbest.record e k
  have hreach : w.Within (reach (failed ++ [(e, k)])) := within_reach hne hfailed
  -- the furthest place is one where the cursor has been, so the return to it is honoured
  rw [ends_iff_of_respond rfl (Setting.respond_snapshot w k),
    resume_measuring_of_not_lt _ _ _ _ _ h]
  rw [ends_iff_of_respond (q := .rollback ⟨w.session, reach (failed ++ [(e, k)])⟩)
    (by rw [htoken]) (Setting.respond_rollback hreach k)]
  refine (ends_fail_iff (e := (Furthest.record best ⟨w.session, k⟩ e).failure) rfl).trans ?_
  rw [Furthest.failure_eq_together, hfailures, Descent.giveUp, if_neg (by simp)]

/-- An alternative comes to what its descent does, if what follows its failure comes to what the
descents behind it do. -/
theorem ends_alternative_iff_firstOf (h : RealizeAll w ps ds) (hc : w.Within c)
    {initial : Token} {best : Option (Furthest ι)} {failed : List (Failure ι × Nat)}
    (i : Fin ps.length)
    (onward : ∀ e k, w.Within k →
      ((choice ps).Ends w (measuringTurn ps initial best i e) k res n ↔
        Descent.firstOf c (failed ++ [(e, k)]) (ds.drop (i + 1)) = some (res, n))) :
    (choice ps).Ends w (alternativeTurn ps initial best i (ps.get i).start) c res n ↔
      Descent.firstOf c failed (ds.drop i) = some (res, n) := by
  have hi : i.val < ds.length := h.length_eq ▸ i.isLt
  have hp : (ps.get i).Realizes w ds[i.val] := h.get i.isLt hi
  rw [ends_alternative, List.drop_eq_getElem_cons hi, Descent.firstOf_cons_eq_some_iff]
  refine or_congr (exists_congr fun a => ?_) (exists_congr fun e => exists_congr fun k => ?_)
  · exact and_congr_left fun _ => hp.yields_iff hc
  · refine (and_congr_left fun _ => hp.yields_iff hc).trans (and_congr_right fun he => ?_)
    by_cases hfatal : e.isFatal
    · rw [if_pos hfatal, if_pos hfatal]
    · rw [if_neg hfatal, if_neg hfatal]
      exact onward e k (hp.forward.within hc he)

/-- From an alternative on, the choice comes to what the remaining descents come to, tried where the
choice began. -/
theorem ends_alternatives (h : RealizeAll w ps ds) (hc : w.Within c) {left : Nat}
    {best : Option (Furthest ι)} {failed : List (Failure ι × Nat)}
    (hbest : Furthest.Sums w best failed) (hfailed : ∀ f ∈ failed, w.Within f.2)
    (i : Fin ps.length) (hleft : ps.length = i + 1 + left) :
    (choice ps).Ends w (alternativeTurn ps ⟨w.session, c⟩ best i (ps.get i).start) c res n ↔
      Descent.firstOf c failed (ds.drop i) = some (res, n) := by
  -- the induction is on the number of alternatives behind this one; `Sums` carries the record along
  induction left generalizing i best failed with
  | zero =>
    refine ends_alternative_iff_firstOf h hc i fun e k hk => ?_
    have hlast : ¬ i.val + 1 < ps.length := by omega
    have hdrop : ds.drop (i + 1) = [] := List.drop_eq_nil_of_le (by rw [← h.length_eq]; omega)
    have hfailed' : ∀ f ∈ failed ++ [(e, k)], w.Within f.2 :=
      List.forall_mem_append.mpr ⟨hfailed, List.forall_mem_singleton.mpr hk⟩
    rw [ends_measuring_of_not_lt _ _ _ _ hlast hbest hfailed', hdrop, Descent.firstOf,
      Option.some.injEq, eq_comm]
  | succ left ih =>
    refine ends_alternative_iff_firstOf h hc i fun e k hk => ?_
    have hnext : i.val + 1 < ps.length := by omega
    have hfailed' : ∀ f ∈ failed ++ [(e, k)], w.Within f.2 :=
      List.forall_mem_append.mpr ⟨hfailed, List.forall_mem_singleton.mpr hk⟩
    rw [ends_measuring_of_lt hc _ _ _ hnext]
    exact ih (hbest.record e k) hfailed' ⟨i + 1, hnext⟩ (by simp only; omega)

/-- A choice between machines comes to what the choice between their descents does. -/
theorem RealizeAll.choice (h : RealizeAll w ps ds) :
    (choice ps).Realizes w (Descent.choice ds) where
  forward := by
    refine Descent.forward_choice fun d hd => ?_
    obtain ⟨i, hi, rfl⟩ := List.getElem_of_mem hd
    exact (h.get (h.length_eq ▸ hi) hi).forward
  yields_iff := by
    intro c n res hc
    by_cases hps : ps = []
    · -- a choice between nothing fails without a question
      obtain rfl : ds = [] := List.eq_nil_of_length_eq_zero (by rw [← h.length_eq, hps]; rfl)
      subst hps
      rw [Yields, ends_fail_iff (e := .aggregate []) rfl]
      exact eq_comm.trans (Option.some.injEq _ _).symm.to_iff
    · have hpos : 0 < ps.length := List.length_pos_iff.mpr hps
      rw [Yields, choice_start hpos, ends_iff_of_respond rfl (Setting.respond_snapshot w c),
        choice_opening hpos]
      have hsums : Furthest.Sums w none ([] : List (Failure ι × Nat)) := rfl
      have hleft : ps.length = 0 + 1 + (ps.length - 1) := by omega
      exact ends_alternatives h hc hsums (by simp) ⟨0, hpos⟩ hleft

end Machine

end ResumableParsing
