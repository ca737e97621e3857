/-
# What an ordered choice comes to

The alternatives of a choice may be any machines, also such as return to places before the one where
the choice began.  Each of them runs as it would run alone from there.  The first that completes or
fails fatally decides, and what stands behind it is not started: the notes of the choice are those
of the alternatives up to it.  If all fail, the cursor is left at the furthest place that any of
them left it at, and the failures that arose there are reported.
-/
import ResumableParsing.Proofs.Course.Basic
import ResumableParsing.Proofs.Descent.Choice

namespace ResumableParsing

variable {ι ν α : Type}

namespace Machine

variable {w : Setting ι} {ps : List (Machine ι ν α)} {c k n : Nat} {res : Except (Failure ι) α}

/-! ## Alternatives that fail -/

/-- The machines run one after the other, each from the place, and fail recoverably: the failures,
with the places where they left the cursor, and what was noted. -/
inductive AllFail (w : Setting ι) (c : Nat) :
    List (Machine ι ν α) → List (Failure ι × Nat) → List ν → Prop
  /-- Nothing is run. -/
  | nil : AllFail w c [] [] []
  /-- The first fails, and those behind it as well. -/
  | cons {p : Machine ι ν α} {ps : List (Machine ι ν α)} {f : Failure ι} {k : Nat}
      {failed : List (Failure ι × Nat)} {notes noted : List ν} (run : p.Runs w c notes (.error f) k)
      (recoverable : f.isFatal = false) (rest : AllFail w c ps failed noted) :
      AllFail w c (p :: ps) ((f, k) :: failed) (notes ++ noted)

/-- The place to which a run leaves the cursor, for each of the machines that failed. -/
theorem AllFail.within {failed : List (Failure ι × Nat)} {noted : List ν}
    (h : AllFail w c ps failed noted) (hc : w.Within c) : ∀ f ∈ failed, w.Within f.2 := by
  induction h with
  | nil => nofun
  | cons run _ _ ih => exact List.forall_mem_cons.mpr ⟨run.within hc, ih⟩

/-- If all machines fail, so do the first of them and those behind. -/
theorem AllFail.split {before after : List (Machine ι ν α)} {failed : List (Failure ι × Nat)}
    {noted : List ν} (h : AllFail w c (before ++ after) failed noted) :
    ∃ failed₁ failed₂ noted₁ noted₂, AllFail w c before failed₁ noted₁ ∧
      AllFail w c after failed₂ noted₂ ∧ failed = failed₁ ++ failed₂ ∧
      noted = noted₁ ++ noted₂ := by
  induction before generalizing failed noted with
  | nil => exact ⟨[], failed, [], noted, .nil, h, rfl, rfl⟩
  | cons p before ih =>
    cases h with
    | @cons _ _ f k _ notes _ run recoverable rest =>
      obtain ⟨failed₁, failed₂, noted₁, noted₂, hbefore, hafter, rfl, rfl⟩ := ih rest
      exact ⟨(f, k) :: failed₁, failed₂, notes ++ noted₁, noted₂,
        .cons run recoverable hbefore, hafter, rfl, (List.append_assoc _ _ _).symm⟩

/-- Some machine comes to the result, which is an output or a fatal failure, and those before it
fail recoverably; all of them run from the place. -/
def Decided (w : Setting ι) (c : Nat) (ps : List (Machine ι ν α)) (notes : List ν)
    (res : Except (Failure ι) α) (n : Nat) : Prop :=
  ∃ before p after failed noted notes', ps = before ++ p :: after ∧
    AllFail w c before failed noted ∧ p.Runs w c notes' res n ∧
    (∀ f, res = .error f → f.isFatal = true) ∧ notes = noted ++ notes'

/-- A machine that fails may stand before those that are decided. -/
theorem Decided.cons {p : Machine ι ν α} {f : Failure ι} {notes noted : List ν}
    (h : Decided w c ps noted res n) (run : p.Runs w c notes (.error f) k)
    (recoverable : f.isFatal = false) : Decided w c (p :: ps) (notes ++ noted) res n := by
  obtain ⟨before, p', after, failed, noted, notes', rfl, hbefore, run', hfatal, rfl⟩ := h
  exact ⟨p :: before, p', after, (f, k) :: failed, notes ++ noted, notes', rfl,
    .cons run recoverable hbefore, run', hfatal, (List.append_assoc _ _ _).symm⟩

/-! ## The turns of an alternative -/

/-- An alternative that completes or fails fatally decides. -/
theorem Runs.decides {i : Fin ps.length} {notes : List ν} (run : (ps.get i).Runs w c notes res k)
    (hfatal : ∀ f, res = .error f → f.isFatal = true) (initial : Token)
    (best : Option (Furthest ι)) :
    (choice ps).Course w (alternativeTurn ps initial best i (ps.get i).start) c notes res k := by
  rw [← List.append_nil notes]
  refine Course.phase (alternativeTurn_suspends initial best i) run fun t ht => ?_
  rw [List.append_nil]
  unfold alternativeTurn Choosing.ofTurn
  rw [ht]
  cases res with
  | ok a => exact .complete rfl
  | error f =>
    simp only [Resumed.ofResult, hfatal f rfl, if_true]
    exact .fail rfl

/-- An alternative that fails recoverably is measured. -/
theorem Runs.measured {i : Fin ps.length} {f : Failure ι} {notes notes' : List ν}
    (run : (ps.get i).Runs w c notes (.error f) k) (hf : f.isFatal = false) {initial : Token}
    {best : Option (Furthest ι)}
    (onward : (choice ps).Course w (measuringTurn ps initial best i f) k notes' res n) :
    (choice ps).Course w (alternativeTurn ps initial best i (ps.get i).start) c (notes ++ notes')
      res n := by
  refine Course.phase (alternativeTurn_suspends initial best i) run fun t ht => ?_
  have hturn : alternativeTurn ps initial best i t =
      ⟨.measuring initial best i f, .suspend .snapshot, t.notes⟩ := by
    unfold alternativeTurn Choosing.ofTurn
    rw [ht]
    exact if_neg (Bool.eq_false_iff.mp hf)
  have hafter := onward.after t.notes
  rw [Turn.after, measuringTurn, List.append_nil] at hafter
  rw [hturn]
  exact hafter

/-- A failure that is measured is followed by the next alternative, where the choice began. -/
theorem Course.measuring_of_lt (hc : w.Within c) {best : Option (Furthest ι)} {i : Fin ps.length}
    {f : Failure ι} (h : i.val + 1 < ps.length) {notes : List ν}
    (onward : (choice ps).Course w (alternativeTurn ps ⟨w.session, c⟩
      (some (Furthest.record best ⟨w.session, k⟩ f)) ⟨i + 1, h⟩ (ps.get ⟨i + 1, h⟩).start) c notes
      res n) :
    (choice ps).Course w (measuringTurn ps ⟨w.session, c⟩ best i f) k notes res n := by
  refine .silent rfl rfl (Setting.respond_snapshot w k) ?_
  rw [resume_measuring_of_lt _ _ _ _ _ h]
  exact .silent rfl rfl (Setting.respond_rollback hc k) onward

/-- The last failure that is measured is followed by the end, at the furthest place. -/
theorem Course.measuring_of_not_lt {initial : Token} {best : Option (Furthest ι)}
    {i : Fin ps.length} {f : Failure ι} (h : ¬ i.val + 1 < ps.length)
    {failed : List (Failure ι × Nat)} (hbest : Furthest.Sums w best failed)
    (hfailed : ∀ g ∈ failed ++ [(f, k)], w.Within g.2) :
    (choice ps).Course w (measuringTurn ps initial best i f) k []
      (.error (together (failuresAt (failed ++ [(f, k)]) (reach (failed ++ [(f, k)])))))
      (reach (failed ++ [(f, k)])) := by
  obtain ⟨hne, htoken, hfailures⟩ := hbest.record f k
  refine .silent rfl rfl (Setting.respond_snapshot w k) ?_
  rw [resume_measuring_of_not_lt _ _ _ _ _ h, htoken]
  refine .silent rfl rfl (Setting.respond_rollback (within_reach hne hfailed) k) ?_
  rw [← hfailures, ← Furthest.failure_eq_together]
  exact .fail rfl

/-! ## Alternatives one after the other -/

/-- Alternatives that fail are followed by the next one, where the choice began. -/
theorem AllFail.onward (hc : w.Within c) {before rest : List (Machine ι ν α)}
    {failed earlier : List (Failure ι × Nat)} {noted : List ν}
    (h : AllFail w c before failed noted) {best : Option (Furthest ι)}
    (hbest : Furthest.Sums w best earlier) (hrest : rest ≠ []) {i : Fin ps.length}
    (hdrop : ps.drop i = before ++ rest) :
    ∃ (best' : Option (Furthest ι)) (j : Fin ps.length),
      Furthest.Sums w best' (earlier ++ failed) ∧ ps.drop j = rest ∧
      ∀ {notes res n},
        (choice ps).Course w (alternativeTurn ps ⟨w.session, c⟩ best' j (ps.get j).start) c notes
          res n →
        (choice ps).Course w (alternativeTurn ps ⟨w.session, c⟩ best i (ps.get i).start) c
          (noted ++ notes) res n := by
  induction h generalizing best earlier i with
  | nil => exact ⟨best, i, by rwa [List.append_nil], hdrop, id⟩
  | @cons p before f k failed notes noted run recoverable _ ih =>
    rw [List.drop_eq_getElem_cons i.isLt, List.cons_append] at hdrop
    obtain ⟨rfl, htail⟩ := List.cons.inj hdrop
    have hnext : i.val + 1 < ps.length := by
      by_contra hlast
      rw [List.drop_eq_nil_of_le (by omega)] at htail
      exact hrest (List.append_eq_nil_iff.mp htail.symm).2
    obtain ⟨best', j, hbest', hj, honward⟩ := ih (hbest.record f k) (i := ⟨i + 1, hnext⟩) htail
    refine ⟨best', j, by rwa [List.append_assoc] at hbest', hj, fun hcourse => ?_⟩
    rw [List.append_assoc]
    exact run.measured recoverable (.measuring_of_lt hc hnext (honward hcourse))

/-- Alternatives that fail lead from the beginning to the one behind them. -/
theorem AllFail.leads (hc : w.Within c) {before : List (Machine ι ν α)}
    {failed : List (Failure ι × Nat)} {noted : List ν} (h : AllFail w c before failed noted)
    (p : Machine ι ν α) (after : List (Machine ι ν α)) (hps : ps = before ++ p :: after) :
    ∃ (best : Option (Furthest ι)) (j : Fin ps.length), Furthest.Sums w best failed ∧
      ps.get j = p ∧ ps.drop (j + 1) = after ∧
      ∀ {notes res n},
        (choice ps).Course w (alternativeTurn ps ⟨w.session, c⟩ best j (ps.get j).start) c notes
          res n → (choice ps).Runs w c (noted ++ notes) res n := by
  have hpos : 0 < ps.length := by
    rw [hps, List.length_append, List.length_cons]
    omega
  have hnone : Furthest.Sums w none ([] : List (Failure ι × Nat)) := rfl
  obtain ⟨best, j, hbest, hj, honward⟩ := h.onward hc hnone (List.cons_ne_nil p after)
    (i := ⟨0, hpos⟩) hps
  rw [List.drop_eq_getElem_cons j.isLt] at hj
  obtain ⟨hp, hafter⟩ := List.cons.inj hj
  refine ⟨best, j, hbest, hp, hafter, @fun notes res n hcourse => ?_⟩
  rw [Runs, choice_start hpos]
  refine .silent rfl rfl (Setting.respond_snapshot w c) ?_
  rw [choice_opening hpos]
  exact honward hcourse

/-- The first alternative that completes or fails fatally decides, whatever stands behind it. -/
theorem AllFail.decided (hc : w.Within c) {before : List (Machine ι ν α)}
    {failed : List (Failure ι × Nat)} {noted : List ν} (h : AllFail w c before failed noted)
    {p : Machine ι ν α} (after : List (Machine ι ν α)) {notes : List ν}
    (run : p.Runs w c notes res n) (hfatal : ∀ f, res = .error f → f.isFatal = true) :
    (choice (before ++ p :: after)).Runs w c (noted ++ notes) res n := by
  obtain ⟨best, j, -, hp, -, honward⟩ := h.leads hc p after rfl
  rw [← hp] at run
  exact honward (run.decides hfatal _ _)

/-- If all alternatives fail, the cursor is left at the furthest place that any of them got to. -/
theorem AllFail.concludes (hc : w.Within c) {failed : List (Failure ι × Nat)} {noted : List ν}
    (h : AllFail w c ps failed noted) (hps : ps ≠ []) :
    (choice ps).Runs w c noted (.error (together (failuresAt failed (reach failed))))
      (reach failed) := by
  -- all but the last lead to the last, which is measured like the others
  obtain ⟨before, p, rfl⟩ : ∃ before p, ps = before ++ [p] :=
    ⟨_, _, (List.dropLast_append_getLast hps).symm⟩
  have hfailed := h.within hc
  obtain ⟨failed, _, noted, _, hbefore, hlast, rfl, rfl⟩ := h.split
  cases hlast with
  | cons run recoverable rest =>
    cases rest
    obtain ⟨best, j, hbest, hp, hend, honward⟩ := hbefore.leads hc p [] rfl
    have hj : ¬ j.val + 1 < (before ++ [p]).length :=
      Nat.not_lt_of_le (List.drop_eq_nil_iff.mp hend)
    rw [← hp] at run
    exact honward (run.measured recoverable (.measuring_of_not_lt hj hbest hfailed))

/-- From an alternative on, the choice ends only if all that are left fail, or one decides. -/
theorem exists_decision (hc : w.Within c) {left : Nat} {best : Option (Furthest ι)}
    (i : Fin ps.length) (hleft : ps.length ≤ i + left)
    (h : (choice ps).Ends w (alternativeTurn ps ⟨w.session, c⟩ best i (ps.get i).start) c res n) :
    (∃ failed noted, AllFail w c (ps.drop i) failed noted) ∨
      ∃ notes, Decided w c (ps.drop i) notes res n := by
  induction left generalizing i best with
  | zero => exact absurd hleft (Nat.not_le_of_lt i.isLt)
  | succ left ih =>
    have hdrop : ps.drop i = ps.get i :: ps.drop (i + 1) := List.drop_eq_getElem_cons i.isLt
    -- an alternative that decides has none before it
    have hdecides {notes : List ν} (run : (ps.get i).Runs w c notes res n)
        (hfatal : ∀ f, res = .error f → f.isFatal = true) :
        ∃ notes, Decided w c (ps.drop i) notes res n :=
      ⟨notes, [], ps.get i, ps.drop (i + 1), [], [], notes, hdrop, .nil, run, hfatal, rfl⟩
    rcases (ends_alternative _ _ _ _).mp h with ⟨a, ha, rfl⟩ | ⟨f, k, hf, hk⟩
    · obtain ⟨notes, run⟩ := ha.exists_course
      exact .inr (hdecides run nofun)
    · obtain ⟨notes, run⟩ := hf.exists_course
      cases hfatal : f.isFatal with
      | true =>
        rw [if_pos hfatal] at hk
        obtain ⟨rfl, rfl⟩ := hk
        exact .inr (hdecides run fun _ hres => Except.error.inj hres ▸ hfatal)
      | false =>
        rw [if_neg (by simp [hfatal])] at hk
        rw [hdrop]
        by_cases hnext : i.val + 1 < ps.length
        · rw [ends_measuring_of_lt hc _ _ _ hnext] at hk
          rcases ih ⟨i + 1, hnext⟩ (by simp only; omega) hk with ⟨failed, noted, hall⟩ |
            ⟨noted, hdecided⟩
          · exact .inl ⟨_, _, .cons run hfatal hall⟩
          · exact .inr ⟨_, hdecided.cons run hfatal⟩
        · rw [List.drop_eq_nil_of_le (by omega)]
          exact .inl ⟨_, _, .cons run hfatal .nil⟩

/-- A choice ends only if all alternatives fail, or one decides. -/
theorem Runs.exists_decision (hc : w.Within c) {notes : List ν}
    (h : (choice ps).Runs w c notes res n) :
    (∃ failed noted, AllFail w c ps failed noted) ∨ ∃ notes, Decided w c ps notes res n := by
  by_cases hps : ps = []
  · subst hps
    exact .inl ⟨[], [], .nil⟩
  · have hpos : 0 < ps.length := List.length_pos_iff.mpr hps
    have hends : (choice ps).Ends w (choice ps).start c res n := h.ends
    rw [choice_start hpos, ends_iff_of_respond rfl (Setting.respond_snapshot w c),
      choice_opening hpos] at hends
    exact Machine.exists_decision hc ⟨0, hpos⟩ (Nat.le_add_left ps.length 0) hends

/-- An ordered choice between any machines, started anywhere in a session.  If the alternatives
before one fail recoverably and this one completes, then so does the choice, with the same output
and at the same place; if this one fails fatally, then so does the choice, with the same failure.
What was noted is then what the alternatives up to this one noted, whatever stands behind it:
nothing of that was started.  If all of one or more alternatives fail recoverably, the cursor is
left at the furthest place that any of them left it at, and the failure is the one that arose there,
or gathers those that did, in order.  A choice between nothing fails at once.  There is no other way
for a choice to end. -/
theorem choice_outcome (hc : w.Within c) :
    (∀ (before : List (Machine ι ν α)) failed noted, AllFail w c before failed noted →
      ∀ p notes e,
        (∀ a, p.Runs w c notes (.ok a) e → ∀ after notes' res n,
          (choice (before ++ p :: after)).Runs w c notes' res n ↔
            notes' = noted ++ notes ∧ res = .ok a ∧ n = e) ∧
        (∀ f, p.Runs w c notes (.error f) e → f.isFatal = true → ∀ after notes' res n,
          (choice (before ++ p :: after)).Runs w c notes' res n ↔
            notes' = noted ++ notes ∧ res = .error f ∧ n = e)) ∧
    (∀ (ps : List (Machine ι ν α)) failed noted, AllFail w c ps failed noted →
      ∀ m, (∃ f ∈ failed, f.2 = m) → (∀ f ∈ failed, f.2 ≤ m) →
        ∃ f, (failuresAt failed m = [f] ∨
            2 ≤ (failuresAt failed m).length ∧
              f = ⟨.aggregate (failuresAt failed m), .recoverable, none⟩) ∧
          ∀ notes res n, (choice ps).Runs w c notes res n ↔
            notes = noted ∧ res = .error f ∧ n = m) ∧
    (choice ([] : List (Machine ι ν α))).start.resumed =
      .fail ⟨.aggregate [], .recoverable, none⟩ ∧
    ∀ (ps : List (Machine ι ν α)) res n,
      ((Session.begun (choice ps) w.session w.start c).Ends (.of w.items w.start) w.ended res n ↔
        ∃ notes, (choice ps).Runs w c notes res n) ∧
      ∀ notes, (choice ps).Runs w c notes res n →
        (∃ failed, AllFail w c ps failed notes) ∨ Decided w c ps notes res n := by
  refine ⟨fun before failed noted h p notes e => ⟨fun a run after _ _ _ => ?_,
    fun f run hf after _ _ _ => ?_⟩, fun ps failed noted h m hm hmax => ?_, rfl,
    fun ps res n => ⟨Session.ends_begun_iff_runs hc, fun notes run => ?_⟩⟩
  · exact Course.iff (h.decided hc after run nofun)
  · exact Course.iff (h.decided hc after run fun _ hres => Except.error.inj hres ▸ hf)
  · have hne : failed ≠ [] := by
      obtain ⟨f, hf, -⟩ := hm
      exact List.ne_nil_of_mem hf
    have hps : ps ≠ [] := by
      rintro rfl
      cases h
      exact hne rfl
    -- the greatest place is the one that the choice finds
    obtain rfl : m = reach failed := by
      obtain ⟨f, hf, rfl⟩ := hm
      obtain ⟨g, hg, hreach⟩ := exists_mem_reach hne
      exact Nat.le_antisymm (le_reach hf) (hreach ▸ hmax g hg)
    exact ⟨_, together_cases (failuresAt_reach_ne_nil hne), fun _ _ _ =>
      Course.iff (h.concludes hc hps)⟩
  · rcases run.exists_decision hc with ⟨failed, noted, hall⟩ | ⟨noted, hdecided⟩
    · obtain rfl : notes = noted := by
        by_cases hps : ps = []
        · subst hps
          cases hall
          exact (Course.fail rfl).unique run |>.1
        · exact (Course.unique (hall.concludes hc hps) run).1
      exact .inl ⟨failed, hall⟩
    · obtain ⟨before, p, after, failed, noted, notes', rfl, hbefore, hp, hfatal, rfl⟩ := hdecided
      obtain rfl : notes = _ := (Course.unique (hbefore.decided hc after hp hfatal) run).1
      exact .inr ⟨before, p, after, failed, noted, notes', rfl, hbefore, hp, hfatal, rfl⟩

/-- The letters of a word, where each resumption notes the word. -/
def spelled (word : String) : Machine Char String (List Char) :=
  (all (word.toList.map fun x => satisfy x.toString (· == x))).tap fun _ _ => word

/-- Of three words two get as far as the second letter, and they are blamed together. -/
theorem choice_of_words :
    let w : Setting Char := ⟨['a', 'b'], true, 0, 0⟩
    w.Within 0 ∧ ∀ notes res n,
      (choice [spelled "x", spelled "ac", spelled "ad"]).Runs w 0 notes res n ↔
        notes = ["x", "x", "ac", "ac", "ac", "ac", "ad", "ad", "ad", "ad"] ∧
        res = .error (.aggregate [.unexpected 'b' "c", .unexpected 'b' "d"]) ∧ n = 1 := by
  intro w
  have hw : w.Within 0 := ⟨Nat.le_refl _, Nat.zero_le _⟩
  have hx : (spelled "x").Runs w 0 ["x", "x"] (.error (.unexpected 'a' "x")) 0 :=
    .answer rfl rfl (.fail rfl)
  have hac : (spelled "ac").Runs w 0 ["ac", "ac", "ac", "ac"] (.error (.unexpected 'b' "c")) 1 :=
    .answer rfl rfl (.answer rfl rfl (.answer rfl rfl (.fail rfl)))
  have had : (spelled "ad").Runs w 0 ["ad", "ad", "ad", "ad"] (.error (.unexpected 'b' "d")) 1 :=
    .answer rfl rfl (.answer rfl rfl (.answer rfl rfl (.fail rfl)))
  have hall := AllFail.cons hx rfl (.cons hac rfl (.cons had rfl .nil))
  obtain ⟨f, hf, hruns⟩ := (choice_outcome hw).2.1 _ _ _ hall 1
    ⟨_, List.mem_cons_of_mem _ List.mem_cons_self, rfl⟩ (by simp)
  obtain rfl : f = .aggregate [.unexpected 'b' "c", .unexpected 'b' "d"] := by
    rcases hf with hf | ⟨-, rfl⟩
    · cases hf
    · rfl
  exact ⟨hw, hruns⟩

end Machine

end ResumableParsing
