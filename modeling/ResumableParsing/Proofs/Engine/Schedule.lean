/-
# Schedules are histories

A call makes its moves and then takes what is available, which is some work.  So every schedule of
calls is a history: the moves of its calls in order, with some work after each.  A call that uses up
its budget has worked all the time, and a call that takes all that is available works until nothing
can be done.
-/
import ResumableParsing.Engine.Schedule
import ResumableParsing.Proofs.Engine.History

namespace ResumableParsing

variable {ι ν ο : Type}

namespace History

variable {m : Machine ι ν ο} {h h' h'' : History m}

/-! ## Work -/

/-- Steps of work. -/
def works (h : History m) (k : Nat) : History m := h.after (List.replicate k .work)

@[simp] theorem works_succ (h : History m) (k : Nat) : h.works (k + 1) = (h.move .work).works k :=
  rfl

/-- Work after work is work. -/
theorem works_add (h : History m) (j k : Nat) : h.works (j + k) = (h.works j).works k := by
  rw [works, ← List.replicate_append_replicate, after_append]
  rfl

/-- Work feeds nothing. -/
@[simp] theorem fed_works (h : History m) (k : Nat) : (h.works k).fed = h.fed := by
  induction k generalizing h with
  | zero => rfl
  | succ k ih => exact ih (h.move .work)

theorem Sound.works (hh : h.Sound) (k : Nat) : (h.works k).Sound := hh.after _

/-- Work changes neither the limit nor whether the end of the input was declared. -/
theorem Sound.keeps_works (hh : h.Sound) (k : Nat) :
    (h.works k).engine.limit = h.engine.limit ∧
      (h.works k).engine.finished = h.engine.finished := by
  induction k generalizing h with
  | zero => exact ⟨rfl, rfl⟩
  | succ k ih =>
    obtain ⟨hlimit, hfinished⟩ := hh.engine.stepped.keeps
    obtain ⟨hlimits, hfinisheds⟩ := ih hh.work
    exact ⟨hlimits.trans hlimit, hfinisheds.trans hfinished⟩

/-- The events of steps of work are those of each step in order. -/
theorem events_works (h : History m) (k : Nat) :
    (h.works k).events =
      h.events ++ (List.range k).flatMap fun i => (h.works i).engine.step.events := by
  induction k with
  | zero => exact (List.append_nil _).symm
  | succ k ih =>
    have hlast : (h.works (k + 1)).events =
        (h.works k).events ++ (h.works k).engine.step.events := by
      rw [works_add h k 1]
      rfl
    rw [hlast, ih, List.range_succ, List.flatMap_append, List.append_assoc, List.flatMap_singleton]

/-- Nothing can be done. -/
def Settled (h : History m) : Prop := h.engine.step.verdict = .idle

/-- Nothing can be done just when no computation can be resumed or refused. -/
theorem Sound.step_of_settled (hh : h.Sound) (hs : h.Settled) :
    h.engine.resumption = none ∧ h.engine.step = ⟨h.engine, [], [], .idle⟩ := by
  unfold Settled at hs
  cases hh.engine.stepped with
  | idle stays eq => exact ⟨stays, eq⟩
  | suspended _ _ eq | completed _ _ _ _ eq => rw [eq] at hs; cases hs
  | refused _ _ _ eq | failed _ _ eq | unproductive _ _ _ eq => rw [eq] at hs; cases hs

/-- Work changes nothing when nothing can be done. -/
theorem Sound.move_work_of_settled (hh : h.Sound) (hs : h.Settled) : h.move .work = h := by
  obtain ⟨hstays, hstep⟩ := hh.step_of_settled hs
  simp [History.move, hstep, hstays, Verdict.delivery]

theorem Sound.works_of_settled (hh : h.Sound) (hs : h.Settled) (k : Nat) : h.works k = h := by
  induction k with
  | zero => rfl
  | succ k ih => rw [works_succ, hh.move_work_of_settled hs, ih]

/-- Nothing can be done later when nothing can be done now. -/
theorem Sound.settled_mono (hh : h.Sound) {j k : Nat} (hjk : j ≤ k) (hs : (h.works j).Settled) :
    (h.works k).Settled := by
  obtain ⟨d, rfl⟩ := Nat.exists_eq_add_of_le hjk
  rwa [works_add, (hh.works j).works_of_settled hs]

/-- All work that can be done leads to the same. -/
theorem Sound.works_unique (hh : h.Sound) {j k : Nat} (hj : (h.works j).Settled)
    (hk : (h.works k).Settled) : h.works j = h.works k := by
  rcases Nat.le_total j k with hjk | hkj
  · obtain ⟨d, rfl⟩ := Nat.exists_eq_add_of_le hjk
    rw [works_add, (hh.works j).works_of_settled hj]
  · obtain ⟨d, rfl⟩ := Nat.exists_eq_add_of_le hkj
    rw [works_add, (hh.works k).works_of_settled hk]

/-- An engine that has ended has nothing to do. -/
theorem settled_of_aborted (ha : h.engine.aborted = true) : h.Settled := by
  have hstep : h.engine.step = ⟨h.engine, [], [], .idle⟩ := if_pos ha
  rw [Settled, hstep]

/-- Nothing changes after the end, however long one works. -/
theorem works_of_aborted (ha : h.engine.aborted = true) (k : Nat) : h.works k = h := by
  induction k with
  | zero => rfl
  | succ k ih => rw [works_succ, move_work_of_aborted ha, ih]

/-- There is something to do in each of the next steps. -/
def Busy (h : History m) (n : Nat) : Prop := ∀ i < n, ¬ (h.works i).Settled

theorem busy_zero (h : History m) : h.Busy 0 := nofun

/-- If there is something to do now and in the steps after it, there is in one step more. -/
theorem Busy.succ {n : Nat} (hs : ¬ h.Settled) (hb : (h.move .work).Busy n) : h.Busy (n + 1) := by
  intro i hi
  cases i with
  | zero => exact hs
  | succ i => exact hb i (Nat.lt_of_succ_lt_succ hi)

/-- Some steps of work use up the budget: in as many as the budget allows at the end there was
something to do. -/
def Tires (h : History m) (budget k : Nat) : Prop := ∃ j, j + budget = k ∧ (h.works j).Busy budget

/-- A larger budget than is needed for all that can be done is not used up. -/
theorem Sound.le_of_tires (hh : h.Sound) {budget k n : Nat} (ht : h.Tires budget k)
    (hn : (h.works n).Settled) : budget ≤ n := by
  obtain ⟨j, -, hb⟩ := ht
  apply Nat.not_lt.mp
  intro hlt
  apply hb n hlt
  rw [← works_add]
  exact hh.settled_mono (by omega) hn

/-! ## What is added -/

/-- From one history to another the engine becomes this one, and this is added. -/
structure Adds (h h' : History m) (e : Engine m) (events : List (Event ι ο)) (notes : List ν)
    (delivered : List (Engine.Delivery ι ο)) : Prop where
  /-- The engine afterwards. -/
  engine : h'.engine = e
  /-- What the observer was told meanwhile. -/
  events : h'.events = h.events ++ events
  /-- What computations noted meanwhile. -/
  notes : h'.notes = h.notes ++ notes
  /-- What was delivered meanwhile. -/
  delivered : h'.delivered = h.delivered ++ delivered

/-- Nothing is added where the logs stay as they are. -/
theorem adds_nothing (hevents : h'.events = h.events) (hnotes : h'.notes = h.notes)
    (hdelivered : h'.delivered = h.delivered) : h.Adds h' h'.engine [] [] [] := by
  constructor
  · rfl
  · rw [hevents, List.append_nil]
  · rw [hnotes, List.append_nil]
  · rw [hdelivered, List.append_nil]

theorem Adds.refl (h : History m) : h.Adds h h.engine [] [] [] := adds_nothing rfl rfl rfl

/-- What is added in two stretches is added one after the other. -/
theorem Adds.trans {e e' : Engine m} {events events' : List (Event ι ο)}
    {notes notes' : List ν} {delivered delivered' : List (Engine.Delivery ι ο)}
    (first : h.Adds h' e events notes delivered)
    (second : h'.Adds h'' e' events' notes' delivered') :
    h.Adds h'' e' (events ++ events') (notes ++ notes') (delivered ++ delivered') where
  engine := second.engine
  events := by rw [second.events, first.events, List.append_assoc]
  notes := by rw [second.notes, first.notes, List.append_assoc]
  delivered := by rw [second.delivered, first.delivered, List.append_assoc]

/-- A step of work adds what the step says. -/
theorem adds_work (h : History m) :
    h.Adds (h.move .work) h.engine.step.engine h.engine.step.events h.engine.step.notes
      h.engine.step.verdict.delivery := ⟨rfl, rfl, rfl, rfl⟩

/-! ## Taking deliveries -/

/-- Asking once for a delivery is some work. -/
theorem adds_next (budget : Nat) (h : History m) :
    ∃ k, h.Adds (h.works k) (h.engine.next budget).engine (h.engine.next budget).events
      (h.engine.next budget).notes (h.engine.next budget).verdict.delivery ∧
      ((h.engine.next budget).verdict = .running → k = budget ∧ h.Busy budget) := by
  induction budget generalizing h with
  | zero => exact ⟨0, .refl h, fun _ => ⟨rfl, h.busy_zero⟩⟩
  | succ budget ih =>
    have hwork := h.adds_work
    cases hv : h.engine.step.verdict with
    | running =>
      have hnext : h.engine.next (budget + 1) =
          { h.engine.step.engine.next budget with
            events := h.engine.step.events ++ (h.engine.step.engine.next budget).events
            notes := h.engine.step.notes ++ (h.engine.step.engine.next budget).notes } := by
        simp only [Engine.next, hv]
      obtain ⟨k, hk, hbusy⟩ := ih (h.move .work)
      rw [hv] at hwork
      rw [hnext]
      refine ⟨k + 1, hwork.trans hk, fun hr => ?_⟩
      obtain ⟨rfl, hb⟩ := hbusy hr
      have hbusy' : ¬ h.Settled := by simp [Settled, hv]
      exact ⟨rfl, .succ hbusy' hb⟩
    | idle | output | error =>
      have hnext : h.engine.next (budget + 1) = h.engine.step := by simp only [Engine.next, hv]
      rw [hnext]
      refine ⟨1, hwork, fun hr => ?_⟩
      rw [hv] at hr
      cases hr

/-- Work until nothing can be done is some work. -/
theorem Sound.adds_drain (budget : Nat) (hh : h.Sound) :
    ∃ k, h.Adds (h.works k) (h.engine.drain budget).engine (h.engine.drain budget).events
      (h.engine.drain budget).notes (h.engine.drain budget).delivered ∧
      ((h.engine.drain budget).settled = true → k ≤ budget ∧ (h.works k).Settled) ∧
      ((h.engine.drain budget).settled = false → k = budget ∧ h.Busy budget) := by
  induction budget generalizing h with
  | zero =>
    refine ⟨0, .refl h, fun hs => ?_, fun _ => ⟨rfl, h.busy_zero⟩⟩
    cases hs
  | succ budget ih =>
    cases hv : h.engine.step.verdict with
    | idle =>
      have hdrain : h.engine.drain (budget + 1) = ⟨h.engine, [], [], [], true⟩ := by
        simp only [Engine.drain, (hh.step_of_settled hv).2]
      rw [hdrain]
      refine ⟨0, .refl h, fun _ => ⟨Nat.zero_le _, hv⟩, fun hs => ?_⟩
      cases hs
    | running | output | error =>
      have hbusy' : ¬ h.Settled := by simp [Settled, hv]
      have hdrain : h.engine.drain (budget + 1) =
          Engine.Advance.before h.engine.step h.engine.step.verdict.delivery
            (h.engine.step.engine.drain budget) := by
        simp only [Engine.drain, hv, Verdict.delivery]
      obtain ⟨k, hk, hsettled, hbusy⟩ := ih (hh.move .work)
      rw [hdrain]
      refine ⟨k + 1, h.adds_work.trans hk, fun hs => ?_, fun hs => ?_⟩
      · obtain ⟨hle, hs⟩ := hsettled hs
        exact ⟨Nat.succ_le_succ hle, hs⟩
      · obtain ⟨rfl, hb⟩ := hbusy hs
        exact ⟨rfl, .succ hbusy' hb⟩

/-- The budget suffices for work that comes to an end before it is used up. -/
theorem Sound.settled_drain (hh : h.Sound) {budget k : Nat} (hk : (h.works k).Settled)
    (hlt : k < budget) : (h.engine.drain budget).settled = true := by
  obtain ⟨j, -, -, hbusy⟩ := hh.adds_drain budget
  cases hs : (h.engine.drain budget).settled with
  | true => rfl
  | false => exact absurd hk ((hbusy hs).2 k hlt)

/-- If the budget suffices, the work comes to an end. -/
theorem Sound.exists_settled (hh : h.Sound) {budget : Nat}
    (hs : (h.engine.drain budget).settled = true) : ∃ k, (h.works k).Settled := by
  obtain ⟨k, -, hsettled, -⟩ := hh.adds_drain budget
  exact ⟨k, (hsettled hs).2⟩

/-- If the budget suffices, all the work is done that can be done. -/
theorem Sound.adds_drain_of_settled (hh : h.Sound) {budget k : Nat} (hk : (h.works k).Settled)
    (hs : (h.engine.drain budget).settled = true) :
    h.Adds (h.works k) (h.engine.drain budget).engine (h.engine.drain budget).events
      (h.engine.drain budget).notes (h.engine.drain budget).delivered := by
  obtain ⟨j, hj, hsettled, -⟩ := hh.adds_drain budget
  rw [hh.works_unique hk (hsettled hs).2]
  exact hj

/-- Asking for deliveries a number of times is some work, which delivers what is answered. -/
theorem adds_takeDeliveries (budget n : Nat) (h : History m) :
    ∃ k delivered, h.Adds (h.works k) (h.engine.takeDeliveries budget n).1
      (h.engine.takeDeliveries budget n).2.1 (h.engine.takeDeliveries budget n).2.2.1 delivered ∧
      (∀ answers, (h.engine.takeDeliveries budget n).2.2.2 = some answers →
        delivered = answers.filterMap id) ∧
      ((h.engine.takeDeliveries budget n).2.2.2 = none → h.Tires budget k) := by
  induction n generalizing h with
  | zero => exact ⟨0, [], .refl h, by rintro _ ⟨⟩; rfl, nofun⟩
  | succ n ih =>
    obtain ⟨j, hj, hbusy⟩ := h.adds_next budget
    cases hv : (h.engine.next budget).verdict with
    | running =>
      refine ⟨j, [], ?_⟩
      rw [hv] at hj
      obtain ⟨hj', hb⟩ := hbusy hv
      simp only [Engine.takeDeliveries, hv]
      exact ⟨hj, nofun, fun _ => ⟨0, (Nat.zero_add budget).trans hj'.symm, hb⟩⟩
    | idle | output | error =>
      obtain ⟨k, delivered, hk, hdelivered, htires⟩ := ih (h.works j)
      rw [hj.engine] at hk hdelivered htires
      refine ⟨j + k, (h.engine.next budget).verdict.delivery ++ delivered, ?_⟩
      rw [works_add]
      simp only [Engine.takeDeliveries, hv]
      rw [hv] at hj
      refine ⟨hj.trans hk, fun answers ha => ?_, fun ha => ?_⟩
      · obtain ⟨rest, hrest, rfl⟩ := Option.map_eq_some_iff.mp ha
        rw [hdelivered rest hrest]
        rfl
      · obtain ⟨i, rfl, hb⟩ := htires (Option.map_eq_none_iff.mp ha)
        refine ⟨j + i, Nat.add_assoc j i budget, ?_⟩
        rwa [works_add]

end History

/-! ## Calls -/

/-- The moves that a call makes before anything is taken. -/
def Call.moves : Call ι → List (Move ι)
  | .feed xs | .drive xs true => [.feed xs]
  | .finish => [.finish]
  | .drive xs false => [.feed xs, .finish]
  | .outputs | .renewObserver => []
  | .configure limit => [.configure limit]

/-- What was delivered when a call was taken up. -/
def Outcome.delivered : Outcome ι ο → List (Engine.Delivery ι ο)
  | .taken answers => answers.filterMap id
  | _ => []

/-- What is taken up is not refused. -/
theorem Engine.outcome_takeAfter_ne_refused {m : Machine ι ν ο} {e : Engine m} {x : ParseError ι}
    (call : Call ι) (budget : Nat) (take : Option Nat) :
    (e.takeAfter call budget take).outcome ≠ .refused x := by
  cases take with
  | none =>
    simp only [Engine.takeAfter]
    split
    · intro hx
      cases hx
    · intro hx
      cases hx
  | some n =>
    simp only [Engine.takeAfter]
    split
    · intro hx
      cases hx
    · intro hx
      cases hx

namespace History

variable {m : Machine ι ν ο} {h h' h'' : History m}

/-- From one history to another this report is added. -/
def Reports (h h' : History m) (r : CallReport m) : Prop :=
  ∃ delivered, h.Adds h' r.engine r.events r.notes delivered ∧
    (r.outcome ≠ .exhausted → delivered = r.outcome.delivered)

/-- So many steps of work take what is available, as the report says. -/
structure Serves (h : History m) (budget : Nat) (take : Option Nat) (k : Nat) (r : CallReport m) :
    Prop where
  /-- The steps are reported. -/
  reports : h.Reports (h.works k) r
  /-- If the budget is used up there was work all the time. -/
  tires : r.outcome = .exhausted → h.Tires budget k
  /-- If all is taken nothing can be done in the end. -/
  settles : take = none → r.outcome ≠ .exhausted → k ≤ budget ∧ (h.works k).Settled

/-- Taking what a call has made available is some work. -/
theorem Sound.serves_takeAfter (hh : h.Sound) (call : Call ι) (budget : Nat) (take : Option Nat) :
    ∃ k, h.Serves budget take k (h.engine.takeAfter call budget take) := by
  cases take with
  | none =>
    obtain ⟨k, hk, hsettled, hbusy⟩ := hh.adds_drain budget
    cases hs : (h.engine.drain budget).settled with
    | true =>
      have hreport : h.engine.takeAfter call budget none =
          ⟨call, (h.engine.drain budget).engine, (h.engine.drain budget).events,
            (h.engine.drain budget).notes,
            .taken ((h.engine.drain budget).delivered.map some)⟩ := by
        simp only [Engine.takeAfter, hs, if_true]
      rw [hreport]
      refine ⟨k, ⟨_, hk, fun _ => ?_⟩, nofun, fun _ _ => hsettled hs⟩
      simp [Outcome.delivered]
    | false =>
      have hreport : h.engine.takeAfter call budget none =
          ⟨call, (h.engine.drain budget).engine, (h.engine.drain budget).events,
            (h.engine.drain budget).notes, .exhausted⟩ := by
        simp [Engine.takeAfter, hs]
      obtain ⟨rfl, hb⟩ := hbusy hs
      rw [hreport]
      exact ⟨k, ⟨_, hk, fun hne => absurd rfl hne⟩, fun _ => ⟨0, Nat.zero_add k, hb⟩,
        fun _ hne => absurd rfl hne⟩
  | some n =>
    obtain ⟨k, delivered, hk, hdelivered, htires⟩ := h.adds_takeDeliveries budget n
    cases ha : (h.engine.takeDeliveries budget n).2.2.2 with
    | none =>
      refine ⟨k, ⟨delivered, hk, fun hne => ?_⟩, fun _ => htires ha, nofun⟩
      simp [Engine.takeAfter, ha] at hne
    | some answers =>
      refine ⟨k, ⟨delivered, hk, fun _ => ?_⟩, fun hex => ?_, nofun⟩
      · simp [Engine.takeAfter, ha, Outcome.delivered, hdelivered answers ha]
      · simp [Engine.takeAfter, ha] at hex

/-! ## Making calls -/

/-- The moves of a call tell nobody anything. -/
theorem adds_moves (h : History m) (call : Call ι) :
    h.Adds (h.after call.moves) (h.after call.moves).engine [] [] [] := by
  cases call with
  | drive xs streaming => cases streaming <;> exact adds_nothing rfl rfl rfl
  | feed | finish | outputs | configure | renewObserver => exact adds_nothing rfl rfl rfl

/-- What was reported after the moves of a call was reported after the call. -/
theorem Reports.of_moves {call : Call ι} {r : CallReport m}
    (hr : (h.after call.moves).Reports h' r) : h.Reports h' r := by
  obtain ⟨delivered, hr, hdelivered⟩ := hr
  exact ⟨delivered, (h.adds_moves call).trans hr, hdelivered⟩

/-- The ways in which a call can go. -/
inductive Makes (h : History m) (budget : Nat) (c : ScheduledCall ι) : CallReport m → Prop
  /-- The call is refused, since an error has ended the engine or the input has ended. -/
  | refused (x : ParseError ι)
      (ended : (h.after c.call.moves).engine.aborted = true ∨ h.engine.finished = true) :
      Makes h budget c ⟨c.call, (h.after c.call.moves).engine, [], [], .refused x⟩
  /-- What is available is taken. -/
  | taken : Makes h budget c ((h.after c.call.moves).engine.takeAfter c.call budget c.take)
  /-- The limit is replaced. -/
  | configured (limit : Option Nat) (eq : c.call = .configure limit) :
      Makes h budget c ⟨c.call, (h.after c.call.moves).engine, [], [], .configured limit⟩
  /-- The observer is replaced. -/
  | renewed (eq : c.call = .renewObserver) :
      Makes h budget c ⟨c.call, (h.after c.call.moves).engine, [], [], .observerRenewed⟩

/-- An engine that refuses items has ended, or its input has. -/
theorem ended_of_feed_error (e : Engine m) {xs : List ι} {x : ParseError ι}
    (hx : (e.feed xs).2 = some x) : (e.feed xs).1.aborted = true ∨ e.finished = true := by
  rcases e.feed_cases xs with ⟨hr, y, heq⟩ | ⟨-, heq | ⟨y, heq⟩⟩
  · rw [heq]
    exact hr
  · rw [heq] at hx
    cases hx
  · rw [heq]
    exact .inl rfl

/-- Where items are refused or too many, the end of the input need not be declared. -/
theorem finish_of_feed_error (e : Engine m) {xs : List ι} {x : ParseError ι}
    (hx : (e.feed xs).2 = some x) : (e.feed xs).1.finish.1 = (e.feed xs).1 := by
  rcases e.feed_cases xs with ⟨hr, y, heq⟩ | ⟨-, heq | ⟨y, heq⟩⟩ <;> rw [heq] at hx ⊢
  · exact Engine.finish_of_ended hr
  · cases hx
  · exact Engine.finish_of_ended (.inl rfl)

/-- An engine that refuses to declare the end of the input has ended. -/
theorem ended_of_finish_error (e : Engine m) {x : ParseError ι} (hx : e.finish.2 = some x) :
    e.finish.1.aborted = true := by
  unfold Engine.finish at hx ⊢
  split at hx
  · rename_i ha
    rwa [if_pos ha]
  · cases hx

/-- A driven engine is fed, and unless more will follow the end of the input is declared. -/
theorem engine_after_drive (h : History m) (xs : List ι) (streaming : Bool) :
    (h.engine.drive xs streaming).1 = (h.after (Call.drive xs streaming).moves).engine := by
  have hfeed : (h.move (.feed xs)).engine = (h.engine.feed xs).1 := rfl
  have hfinish : ((h.move (.feed xs)).move .finish).engine = (h.engine.feed xs).1.finish.1 := rfl
  unfold Engine.drive
  cases hx : h.engine.feed xs with
  | mk e x =>
    rw [hx] at hfeed hfinish
    cases streaming with
    | true => cases x <;> exact hfeed.symm
    | false =>
      cases x with
      | none => exact hfinish.symm
      | some x =>
        have hend := finish_of_feed_error (x := x) h.engine (by rw [hx])
        rw [hx] at hend
        exact (hfinish.trans hend).symm

/-- An engine that refuses to be driven has ended, or its input has. -/
theorem ended_of_drive_error (e : Engine m) {xs : List ι} {streaming : Bool} {x : ParseError ι}
    (hx : (e.drive xs streaming).2 = some x) :
    (e.drive xs streaming).1.aborted = true ∨ e.finished = true := by
  unfold Engine.drive at hx ⊢
  cases hy : e.feed xs with
  | mk e' y =>
    rw [hy] at hx
    cases y with
    | some y =>
      have hended := ended_of_feed_error (x := y) e (by rw [hy])
      rwa [hy] at hended
    | none =>
      cases streaming with
      | true => cases hx
      | false => exact .inl (ended_of_finish_error e' hx)

/-- What becomes of a call whose moves lead to this engine, and which is refused or not. -/
def answerCall (budget : Nat) (c : ScheduledCall ι) :
    Engine m × Option (ParseError ι) → CallReport m
  | (e, some x) => ⟨c.call, e, [], [], .refused x⟩
  | (e, none) => e.takeAfter c.call budget c.take

/-- A call that has made its moves works until it has taken enough, unless its error is answered at
once. -/
theorem makes_answerCall {c : ScheduledCall ι} {p : Engine m × Option (ParseError ι)}
    (hp : p.1 = (h.after c.call.moves).engine)
    (hended : ∀ x, p.2 = some x → p.1.aborted = true ∨ h.engine.finished = true) (budget : Nat) :
    h.Makes budget c (answerCall budget c p) := by
  obtain ⟨e, _ | x⟩ := p <;> obtain rfl : e = _ := hp
  · exact .taken
  · exact .refused x (hended x rfl)

/-- A call goes in one of these ways. -/
theorem makes_makeCall (budget : Nat) (h : History m) (c : ScheduledCall ι) :
    h.Makes budget c (h.engine.makeCall budget c) := by
  obtain ⟨call, take⟩ := c
  cases call with
  | feed xs =>
    have hfeed : (h.engine.feed xs).1 = (h.after (Call.feed xs).moves).engine := rfl
    exact makes_answerCall (c := ⟨.feed xs, take⟩) hfeed (fun _ => ended_of_feed_error _) budget
  | finish =>
    have hfinish : h.engine.finish.1 = (h.after Call.finish.moves).engine := rfl
    exact makes_answerCall (c := ⟨.finish, take⟩) hfinish
      (fun _ hx => .inl (ended_of_finish_error _ hx)) budget
  | drive xs streaming =>
    exact makes_answerCall (c := ⟨.drive xs streaming, take⟩) (h.engine_after_drive xs streaming)
      (fun _ => ended_of_drive_error _) budget
  | outputs => exact .taken
  | configure limit => exact .configured limit rfl
  | renewObserver => exact .renewed rfl

/-- A call is its moves and then some work. -/
theorem Sound.reports_makeCall (hh : h.Sound) (budget : Nat) (c : ScheduledCall ι) :
    ∃ k, h.Reports ((h.after c.call.moves).works k) (h.engine.makeCall budget c) := by
  have hmakes := makes_makeCall budget h c
  generalize h.engine.makeCall budget c = r at hmakes
  cases hmakes with
  | taken =>
    obtain ⟨k, hk⟩ := (hh.after c.call.moves).serves_takeAfter c.call budget c.take
    exact ⟨k, hk.reports.of_moves⟩
  | refused | configured | renewed => exact ⟨0, [], h.adds_moves c.call, fun _ => rfl⟩

/-! ## Running schedules -/

/-- A history goes on as a schedule goes: every call is its moves and then some work. -/
inductive Follows (budget : Nat) : History m → List (ScheduledCall ι) → History m → Prop
  /-- No call is made. -/
  | nil (h : History m) : Follows budget h [] h
  /-- A call is made, and the schedule goes on. -/
  | cons {h h' : History m} {c : ScheduledCall ι} {calls : List (ScheduledCall ι)} {k : Nat}
      (first : h.Reports ((h.after c.call.moves).works k) (h.engine.makeCall budget c))
      (rest : Follows budget ((h.after c.call.moves).works k) calls h') :
      Follows budget h (c :: calls) h'

/-- The engine of a history is the one that its last call reports. -/
theorem Reports.engine {r : CallReport m} (hr : h.Reports h' r) : h'.engine = r.engine := by
  obtain ⟨_, hr, -⟩ := hr
  exact hr.engine

/-- Every schedule is a history. -/
theorem Sound.exists_follows (hh : h.Sound) (budget : Nat) (calls : List (ScheduledCall ι)) :
    ∃ h', h.Follows budget calls h' := by
  induction calls generalizing h with
  | nil => exact ⟨h, .nil h⟩
  | cons c calls ih =>
    obtain ⟨k, hk⟩ := hh.reports_makeCall budget c
    obtain ⟨h', hrest⟩ := ih ((hh.after c.call.moves).works k)
    exact ⟨h', .cons hk hrest⟩

/-- The moves of a schedule with work in between lead to the history. -/
theorem Follows.exists_moves {budget : Nat} {calls : List (ScheduledCall ι)}
    (hf : h.Follows budget calls h') : ∃ moves, h.after moves = h' := by
  induction hf with
  | nil h => exact ⟨[], rfl⟩
  | @cons h h' c calls k first rest ih =>
    obtain ⟨moves, rfl⟩ := ih
    exact ⟨c.call.moves ++ (List.replicate k .work ++ moves), by
      rw [after_append, after_append]
      rfl⟩

/-- The history of a schedule is what the calls report. -/
theorem Follows.adds {budget : Nat} {calls : List (ScheduledCall ι)}
    (hf : h.Follows budget calls h') :
    ∃ delivered, h.Adds h'
        (((h.engine.runSchedule budget calls).map CallReport.engine).getLastD h.engine)
        ((h.engine.runSchedule budget calls).flatMap CallReport.events)
        ((h.engine.runSchedule budget calls).flatMap CallReport.notes) delivered ∧
      ((∀ r ∈ h.engine.runSchedule budget calls, r.outcome ≠ .exhausted) →
        delivered = (h.engine.runSchedule budget calls).flatMap (·.outcome.delivered)) := by
  induction hf with
  | nil h => exact ⟨[], .refl h, fun _ => rfl⟩
  | cons first rest ih =>
    have hengine := first.engine
    obtain ⟨before, hfirst, hbefore⟩ := first
    obtain ⟨behind, hrest, hbehind⟩ := ih
    rw [hengine] at hrest hbehind
    simp only [Engine.runSchedule, List.map_cons, List.flatMap_cons, List.getLastD_cons,
      List.mem_cons, forall_eq_or_imp]
    refine ⟨before ++ behind, hfirst.trans hrest, fun hr => ?_⟩
    rw [hbefore hr.1, hbehind hr.2]

/-- The calls of a schedule go on where those before them ended. -/
theorem Follows.runSchedule_append {budget : Nat} {calls calls' : List (ScheduledCall ι)}
    (hf : h.Follows budget calls h') :
    h.engine.runSchedule budget (calls ++ calls') =
      h.engine.runSchedule budget calls ++ h'.engine.runSchedule budget calls' := by
  induction hf with
  | nil h => rfl
  | cons first rest ih =>
    rw [first.engine] at ih
    simp only [List.cons_append, Engine.runSchedule, ih]

/-- Two schedules one after the other are one. -/
theorem Follows.append {budget : Nat} {calls calls' : List (ScheduledCall ι)}
    (hf : h.Follows budget calls h') (hf' : h'.Follows budget calls' h'') :
    h.Follows budget (calls ++ calls') h'' := by
  induction hf with
  | nil h => exact hf'
  | cons first rest ih => exact .cons first (ih hf')

/-! ## Parsing a whole input -/

/-- The history of a whole input before any work is done: its end is declared. -/
def whole (m : Machine ι ν ο) (xs : List ι) : History m := (fresh m none).after [.feed xs, .finish]

/-- Before it is parsed, a whole input was fed and its end declared. -/
theorem sound_whole (m : Machine ι ν ο) (xs : List ι) : (whole m xs).Sound :=
  (sound_fresh m none).after _

/-- Parsing a whole input is working on it until nothing can be done. -/
theorem parseAll_eq (m : Machine ι ν ο) (budget : Nat) (xs : List ι) :
    parseAll m budget xs =
      if ((whole m xs).engine.drain budget).settled then
        some (gather ((whole m xs).engine.drain budget).delivered,
          ((whole m xs).engine.drain budget).notes)
      else none := rfl

/-- A whole input is parsed, if the budget is large enough, just when some work leads to where
nothing can be done. -/
theorem parseAll_eq_some_iff {m : Machine ι ν ο} {xs : List ι}
    {res : Except (ParseError ι) (List ο)} {notes : List ν} :
    (∃ budget, parseAll m budget xs = some (res, notes)) ↔
      ∃ k, ((whole m xs).works k).Settled ∧ gather ((whole m xs).works k).delivered = res ∧
        ((whole m xs).works k).notes = notes := by
  have hw : (whole m xs).Sound := sound_whole m xs
  have hparse {budget k : Nat} (hk : ((whole m xs).works k).Settled)
      (hs : ((whole m xs).engine.drain budget).settled = true) :
      parseAll m budget xs =
        some (gather ((whole m xs).works k).delivered, ((whole m xs).works k).notes) := by
    have hadds := hw.adds_drain_of_settled hk hs
    rw [parseAll_eq, if_pos hs, hadds.delivered, hadds.notes]
    rfl
  constructor
  · rintro ⟨budget, hres⟩
    cases hs : ((whole m xs).engine.drain budget).settled with
    | false =>
      rw [parseAll_eq, if_neg (by simp [hs])] at hres
      cases hres
    | true =>
      obtain ⟨k, hk⟩ := hw.exists_settled hs
      rw [hparse hk hs] at hres
      cases hres
      exact ⟨k, hk, rfl, rfl⟩
  · rintro ⟨n, hn, rfl, rfl⟩
    exact ⟨n + 1, hparse hn (hw.settled_drain hn (Nat.lt_succ_self n))⟩

end History

end ResumableParsing
