/-
# How an engine ends

An engine ends with the first error, and the error is the last thing that it hands out.  Errors come
from four sides: a return that is refused, a failure of the computation, a completion where there
must be none, and items that are too many.  `Sound.hands_cases` says what one move can hand out, and
`Concluded` what all moves together have: outputs, and behind them one error if the engine has
ended.

An engine that has ended refuses what it is told, and nothing about it changes any more.  Where
there is nothing to deliver there is nothing to do, so that asking again is in vain; and items that
are refused because the input has ended leave everything as it is.
-/
import ResumableParsing.Proofs.Engine.Tiling

namespace ResumableParsing

variable {ι ν ο : Type}

/-! ## Engines that have ended -/

namespace Engine

variable {m : Machine ι ν ο} {e : Engine m}

theorem step_of_aborted (ha : e.aborted = true) : e.step = ⟨e, [], [], .idle⟩ := if_pos ha

theorem feed_of_aborted (ha : e.aborted = true) (xs : List ι) :
    e.feed xs = (e, some (.usage .aborted)) := if_pos ha

theorem finish_of_aborted (ha : e.aborted = true) : e.finish = (e, some (.usage .aborted)) :=
  if_pos ha

/-- A call on an engine that has ended is refused and changes nothing. -/
theorem drive_of_aborted (ha : e.aborted = true) (xs : List ι) (streaming : Bool) :
    e.drive xs streaming = (e, some (.usage .aborted)) := by
  rw [drive, feed_of_aborted ha]

/-- Where a step does nothing, there is no delivery. -/
theorem next_of_step (hs : e.step = ⟨e, [], [], .idle⟩) (budget : Nat) :
    e.next (budget + 1) = ⟨e, [], [], .idle⟩ := by
  simp only [next, hs]

/-! ## Items after the end of the input -/

/-- Items after the end of the input are refused, and so is driving the engine with them. -/
theorem feed_of_finished (ha : e.aborted = false) (hf : e.finished = true) (xs : List ι) :
    e.feed xs = (e, some (.usage .inputFinished)) := by
  simp [feed, ha, hf]

/-- Items after the end of the input are refused. -/
theorem drive_of_finished (ha : e.aborted = false) (hf : e.finished = true) (xs : List ι)
    (streaming : Bool) : e.drive xs streaming = (e, some (.usage .inputFinished)) := by
  rw [drive, feed_of_finished ha hf]

/-- Only after the end of the input are items refused for it. -/
theorem ended_of_feed (xs : List ι) (hx : (e.feed xs).2 = some (.usage .inputFinished)) :
    e.aborted = false ∧ e.finished = true := by
  rcases e.feed_eq xs with ⟨-, heq⟩ | ⟨hended, -⟩ | ⟨-, heq | ⟨_, _, heq⟩⟩
  · rw [heq] at hx
    cases hx
  · exact hended
  · rw [heq] at hx
    cases hx
  · rw [heq] at hx
    cases hx

/-- Declaring the end of the input is refused only to an engine that has ended. -/
theorem finish_error (e : Engine m) {x : ParseError ι} (hx : e.finish.2 = some x) :
    x = .usage .aborted := by
  unfold finish at hx
  split at hx
  · cases hx
    rfl
  · cases hx

/-- Items are refused as coming after the end only if the end was declared. -/
theorem ended_of_drive (xs : List ι) (streaming : Bool)
    (hx : (e.drive xs streaming).2 = some (.usage .inputFinished)) :
    e.aborted = false ∧ e.finished = true := by
  apply ended_of_feed xs
  unfold drive at hx
  generalize e.feed xs = p at hx ⊢
  obtain ⟨e', _ | x⟩ := p
  · -- items that were not refused leave only the end of the input to be declared
    cases streaming with
    | true => cases hx
    | false => cases e'.finish_error hx
  · exact hx

end Engine

/-- Whether a call lets items arrive. -/
def Call.Brings : Call ι → Prop
  | .feed _ | .drive _ _ => True
  | _ => False

namespace Engine

variable {m : Machine ι ν ο}

/-- A call is refused because the input has ended just if the call lets items arrive, the input has
ended and no error has ended the engine. -/
theorem makeCall_inputFinished_iff (e : Engine m) (budget : Nat) (c : ScheduledCall ι) :
    (e.makeCall budget c).outcome = .refused (.usage .inputFinished) ↔
      c.call.Brings ∧ e.aborted = false ∧ e.finished = true := by
  obtain ⟨call, take⟩ := c
  -- a call that is not refused is taken up
  have hanswer {p : Engine m × Option (ParseError ι)} :
      (History.answerCall budget ⟨call, take⟩ p).outcome = .refused (.usage .inputFinished) ↔
        p.2 = some (.usage .inputFinished) := by
    obtain ⟨e', _ | x⟩ := p
    · exact iff_of_false (outcome_takeAfter_ne_refused _ _ _) nofun
    · simp [History.answerCall]
  cases call with
  | feed xs =>
    refine (hanswer (p := e.feed xs)).trans ⟨fun hx => ⟨trivial, ended_of_feed xs hx⟩, fun h => ?_⟩
    rw [feed_of_finished h.2.1 h.2.2]
  | drive xs streaming =>
    refine (hanswer (p := e.drive xs streaming)).trans
      ⟨fun hx => ⟨trivial, ended_of_drive xs streaming hx⟩, fun h => ?_⟩
    rw [drive_of_finished h.2.1 h.2.2]
  | finish =>
    refine (hanswer (p := e.finish)).trans ⟨fun hx => ?_, fun h => h.1.elim⟩
    cases e.finish_error hx
  | outputs => exact (hanswer (p := (e, none))).trans ⟨nofun, fun h => h.1.elim⟩
  | configure | renewObserver => exact ⟨nofun, fun h => h.1.elim⟩

/-- A call that is refused because the input has ended leaves the engine as it is. -/
theorem makeCall_of_inputFinished {e : Engine m} {budget : Nat} {c : ScheduledCall ι}
    (hx : (e.makeCall budget c).outcome = .refused (.usage .inputFinished)) :
    e.makeCall budget c = ⟨c.call, e, [], [], .refused (.usage .inputFinished)⟩ := by
  obtain ⟨hbrings, ha, hf⟩ := (e.makeCall_inputFinished_iff budget c).mp hx
  obtain ⟨call, take⟩ := c
  cases call with
  | feed xs => simp [makeCall, feed_of_finished ha hf]
  | drive xs streaming => simp [makeCall, drive_of_finished ha hf]
  | finish | outputs | configure | renewObserver => exact hbrings.elim

end Engine

/-! ## What moves hand out -/

/-- Outputs, and behind them one error if the engine has ended. -/
def Concluded (ended : Bool) (handed : List (Engine.Delivery ι ο)) : Prop :=
  ∃ (outputs : List ο) (errors : List (ParseError ι)),
    handed = outputs.map .ok ++ errors.map .error ∧ errors.length = ended.toNat

/-- Before the engine has ended, one more output may be handed out. -/
theorem Concluded.output {handed : List (Engine.Delivery ι ο)} (hc : Concluded false handed)
    (o : ο) : Concluded false (handed ++ [.ok o]) := by
  obtain ⟨outputs, errors, rfl, hlen⟩ := hc
  obtain rfl : errors = [] := List.eq_nil_of_length_eq_zero hlen
  exact ⟨outputs ++ [o], [], by simp, rfl⟩

/-- The error with which the engine ends is handed out last. -/
theorem Concluded.error {handed : List (Engine.Delivery ι ο)} (hc : Concluded false handed)
    (x : ParseError ι) : Concluded true (handed ++ [.error x]) := by
  obtain ⟨outputs, errors, rfl, hlen⟩ := hc
  obtain rfl : errors = [] := List.eq_nil_of_length_eq_zero hlen
  exact ⟨outputs, [x], by simp, rfl⟩

/-- The error of items that were too many. -/
def overflow : Option (ParseError ι) → List (Engine.Delivery ι ο)
  | some (.bufferOverflow retained limit) => [.error (.bufferOverflow retained limit)]
  | _ => []

namespace History

variable {m : Machine ι ν ο} {h : History m}

/-- What a move hands out: what a step delivers, and the error of items that are too many. -/
def hands (h : History m) : Move ι → List (Engine.Delivery ι ο)
  | .feed xs => overflow (h.engine.feed xs).2
  | .work => h.engine.step.verdict.delivery
  | .finish | .configure _ => []

/-- What moves hand out, in order. -/
def handed (h : History m) : List (Move ι) → List (Engine.Delivery ι ο)
  | [] => []
  | x :: moves => h.hands x ++ (h.move x).handed moves

/-- A move hands out nothing and does not end the engine; or it hands out an output, or the error
with which the engine ends. -/
theorem Sound.hands_cases (hh : h.Sound) (x : Move ι) :
    h.hands x = [] ∧ (h.move x).engine.aborted = h.engine.aborted ∨
      h.engine.aborted = false ∧
        ((∃ o, h.hands x = [.ok o] ∧ (h.move x).engine.aborted = false) ∨
          ∃ y, h.hands x = [.error y] ∧ (h.move x).engine.aborted = true) := by
  cases x with
  | feed xs =>
    have hengine : (h.move (.feed xs)).engine = (h.engine.feed xs).1 := rfl
    rw [hengine, hands]
    rcases h.engine.feed_eq xs with ⟨-, heq⟩ | ⟨-, heq⟩ | ⟨⟨ha, -⟩, heq | ⟨_, _, heq⟩⟩ <;> rw [heq]
    · exact .inl ⟨rfl, rfl⟩
    · exact .inl ⟨rfl, rfl⟩
    · exact .inl ⟨rfl, rfl⟩
    · exact .inr ⟨ha, .inr ⟨_, rfl, rfl⟩⟩
  | finish =>
    have hengine : (h.move .finish).engine = h.engine.finish.1 := rfl
    refine .inl ⟨rfl, ?_⟩
    rw [hengine, Engine.finish]
    split <;> rfl
  | configure limit => exact .inl ⟨rfl, rfl⟩
  | work =>
    have hengine : (h.move .work).engine = h.engine.step.engine := rfl
    rw [hengine, hands]
    cases hh.engine.stepped with
    | idle _ eq =>
      rw [eq]
      exact .inl ⟨rfl, rfl⟩
    | suspended _ _ eq =>
      rw [eq]
      exact .inl ⟨rfl, rfl⟩
    | completed resumes _ _ _ eq =>
      have ha := (Engine.resumption_eq_some resumes).1
      rw [eq]
      exact .inr ⟨ha, .inl ⟨_, rfl, ha⟩⟩
    | failed resumes _ eq | unproductive resumes _ _ eq =>
      rw [eq]
      exact .inr ⟨(Engine.resumption_eq_some resumes).1, .inr ⟨_, rfl, rfl⟩⟩
    | refused stays active _ eq =>
      -- an engine that has ended runs no session
      have ha : h.engine.aborted = false := by
        apply Bool.eq_false_iff.mpr
        intro ha
        rw [hh.engine.ended ha] at active
        cases active
      rw [eq]
      exact .inr ⟨ha, .inr ⟨_, rfl, rfl⟩⟩

/-- Every move keeps what was handed out concluded. -/
theorem Sound.concluded_after (hh : h.Sound) {before : List (Engine.Delivery ι ο)}
    (hc : Concluded h.engine.aborted before) (moves : List (Move ι)) :
    Concluded (h.after moves).engine.aborted (before ++ h.handed moves) := by
  induction moves generalizing h before with
  | nil =>
    rw [handed, List.append_nil]
    exact hc
  | cons x moves ih =>
    rw [handed, ← List.append_assoc]
    refine ih (hh.move x) ?_
    rcases hh.hands_cases x with ⟨hnone, hsame⟩ | ⟨ha, ⟨o, ho, hrunning⟩ | ⟨y, hy, hended⟩⟩
    · rw [hnone, List.append_nil, hsame]
      exact hc
    · rw [ho, hrunning]
      exact (ha ▸ hc).output o
    · rw [hy, hended]
      exact (ha ▸ hc).error y

/-- Moves one after the other hand out one after the other. -/
theorem handed_append (h : History m) (moves moves' : List (Move ι)) :
    h.handed (moves ++ moves') = h.handed moves ++ (h.after moves).handed moves' := by
  induction moves generalizing h with
  | nil => rfl
  | cons x moves ih => rw [List.cons_append, handed, handed, ih, List.append_assoc, after_cons]

/-- Work hands out what it delivers. -/
theorem delivered_works (h : History m) (k : Nat) :
    (h.works k).delivered = h.delivered ++ h.handed (List.replicate k .work) := by
  induction k generalizing h with
  | zero => exact (List.append_nil _).symm
  | succ k ih =>
    rw [works_succ, ih, List.replicate_succ, handed, ← List.append_assoc]
    rfl

/-! ## After the end -/

/-- The limit is all that a move changes in an engine that has ended. -/
theorem move_of_aborted (ha : h.engine.aborted = true) (x : Move ι) :
    ∃ limit, h.move x = { h with engine := { h.engine with limit := limit } } := by
  cases x with
  | feed xs => exact ⟨h.engine.limit, move_feed_of_refused (.inl ha) xs⟩
  | finish =>
    refine ⟨h.engine.limit, ?_⟩
    rw [History.move, Engine.finish_of_aborted ha]
  | configure limit => exact ⟨limit, rfl⟩
  | work => exact ⟨h.engine.limit, move_work_of_aborted ha⟩

/-- Whatever is done after an error, at most the limit changes. -/
theorem after_of_aborted (ha : h.engine.aborted = true) (moves : List (Move ι)) :
    ∃ limit, h.after moves = { h with engine := { h.engine with limit := limit } } := by
  induction moves generalizing h with
  | nil => exact ⟨h.engine.limit, rfl⟩
  | cons x moves ih =>
    obtain ⟨limit, hx⟩ := move_of_aborted ha x
    rw [after_cons, hx]
    exact ih (h := { h with engine := { h.engine with limit := limit } }) ha

/-- The end of the input is not taken back. -/
theorem Sound.finished_after (hh : h.Sound) (hf : h.engine.finished = true)
    (moves : List (Move ι)) : (h.after moves).engine.finished = true := by
  induction moves generalizing h with
  | nil => exact hf
  | cons x moves ih =>
    refine ih (hh.move x) ?_
    cases x with
    | feed xs =>
      rw [move_feed_of_refused (.inr hf)]
      exact hf
    | finish =>
      have hengine : (h.move .finish).engine = h.engine.finish.1 := rfl
      rw [hengine, Engine.finish_of_ended (.inr hf)]
      exact hf
    | configure limit => exact hf
    | work => exact hh.engine.stepped.keeps.2.trans hf

/-! ## What calls hand out -/

end History

/-- What a call hands out: what is taken, and the error of items that are too many. -/
def Outcome.handed : Outcome ι ο → List (Engine.Delivery ι ο)
  | .refused x => overflow (some x)
  | other => other.delivered

namespace History

variable {m : Machine ι ν ο} {h h' : History m}

/-- What the moves of a call hand out is the error with which the call is refused, if the items were
too many. -/
theorem handed_moves (h : History m) (budget : Nat) (c : ScheduledCall ι) :
    (h.engine.makeCall budget c).outcome.handed =
      h.handed c.call.moves ++ (h.engine.makeCall budget c).outcome.delivered := by
  obtain ⟨call, take⟩ := c
  -- a call that is taken up hands out what is taken
  have htaken (e : Engine m) : (e.takeAfter call budget take).outcome.handed =
      (e.takeAfter call budget take).outcome.delivered := by
    cases ho : (e.takeAfter call budget take).outcome with
    | refused x => exact absurd ho (Engine.outcome_takeAfter_ne_refused call budget take)
    | taken | configured | observerRenewed | exhausted => rfl
  have hanswer {p : Engine m × Option (ParseError ι)} :
      (answerCall budget ⟨call, take⟩ p).outcome.handed =
        overflow p.2 ++ (answerCall budget ⟨call, take⟩ p).outcome.delivered := by
    obtain ⟨e, _ | x⟩ := p
    · exact htaken e
    · exact (List.append_nil _).symm
  cases call with
  | feed xs =>
    have hmoves : h.handed (Call.feed xs).moves = overflow (h.engine.feed xs).2 :=
      List.append_nil _
    rw [hmoves]
    exact hanswer
  | finish =>
    have hnone : overflow h.engine.finish.2 = ([] : List (Engine.Delivery ι ο)) := by
      unfold Engine.finish
      split <;> rfl
    exact (hanswer (p := h.engine.finish)).trans (by rw [hnone]; rfl)
  | drive xs streaming =>
    have hmoves : h.handed (Call.drive xs streaming).moves = overflow (h.engine.feed xs).2 := by
      cases streaming <;> simp [Call.moves, handed, hands]
    have hdrive : overflow (h.engine.drive xs streaming).2 =
        (overflow (h.engine.feed xs).2 : List (Engine.Delivery ι ο)) := by
      unfold Engine.drive
      generalize h.engine.feed xs = p
      obtain ⟨e, _ | x⟩ := p
      · cases streaming with
        | true => rfl
        | false =>
          show overflow e.finish.2 = _
          unfold Engine.finish
          split <;> rfl
      · rfl
    rw [hmoves, ← hdrive]
    exact hanswer
  | outputs => exact htaken h.engine
  | configure | renewObserver => rfl

/-- What the calls of a schedule hand out is what the moves of its history hand out. -/
theorem Follows.exists_handed {budget : Nat} {calls : List (ScheduledCall ι)}
    (hf : h.Follows budget calls h') :
    ∃ moves, h.after moves = h' ∧
      ((∀ r ∈ h.engine.runSchedule budget calls, r.outcome ≠ .exhausted) →
        (h.engine.runSchedule budget calls).flatMap (·.outcome.handed) = h.handed moves) := by
  induction hf with
  | nil h => exact ⟨[], rfl, fun _ => rfl⟩
  | @cons h h' c calls k first rest ih =>
    obtain ⟨moves, rfl, hmoves⟩ := ih
    have hengine := first.engine
    obtain ⟨delivered, hadds, hdelivered⟩ := first
    refine ⟨c.call.moves ++ (List.replicate k .work ++ moves), ?_, fun hr => ?_⟩
    · rw [after_append, after_append]
      rfl
    · obtain ⟨hfirst, hrest⟩ := List.forall_mem_cons.mp hr
      rw [hengine] at hmoves
      -- the work after the moves of the call hands out what the call reports
      have hworks : (h.after c.call.moves).handed (List.replicate k .work) =
          (h.engine.makeCall budget c).outcome.delivered := by
        rw [← hdelivered hfirst]
        apply (List.append_right_inj h.delivered).mp
        rw [← hadds.delivered, delivered_works, (h.adds_moves c.call).delivered, List.append_nil]
      rw [handed_append, handed_append, hworks, ← List.append_assoc, ← h.handed_moves budget c]
      show (h.engine.makeCall budget c).outcome.handed ++
        ((h.engine.makeCall budget c).engine.runSchedule budget calls).flatMap _ = _
      rw [hmoves hrest]
      rfl

/-- However an engine is called, and at any moment: outputs were handed out, and behind them one
error if the engine has ended, be it delivered or that of items that were too many.  Once it has
ended it stays so, with the same window, and tells nobody anything; it refuses items and the end of
the input, and delivers nothing.  A call is refused because the input has ended just if it lets
items arrive behind that end and no error came before; it then leaves the engine as it is, so that
later calls go as if it had not been made.  The end of the input is not taken back.  Where asking
for a delivery finds none, asking again finds none, resumes no computation and changes nothing. -/
theorem error_is_final (m : Machine ι ν ο) (limit : Option Nat) (moves : List (Move ι)) :
    let h := (fresh m limit).after moves
    let e := h.engine
    Concluded e.aborted ((fresh m limit).handed moves) ∧
    (e.aborted = true → ∀ moves',
      let h' := h.after moves'
      let e' := h'.engine
      (e'.aborted = true ∧ e'.buffered = e.buffered ∧ e'.committed = e.committed ∧
        e'.finished = e.finished ∧ h'.events = h.events ∧ h'.notes = h.notes) ∧
      (∀ xs, e'.feed xs = (e', some (.usage .aborted))) ∧
      e'.finish = (e', some (.usage .aborted)) ∧
      (∀ xs streaming, e'.drive xs streaming = (e', some (.usage .aborted))) ∧
      ∀ budget, e'.next (budget + 1) = ⟨e', [], [], .idle⟩) ∧
    (∀ budget c,
      ((e.makeCall budget c).outcome = .refused (.usage .inputFinished) ↔
        c.call.Brings ∧ e.aborted = false ∧ e.finished = true) ∧
      ((e.makeCall budget c).outcome = .refused (.usage .inputFinished) →
        ∀ calls, e.runSchedule budget (c :: calls) =
          ⟨c.call, e, [], [], .refused (.usage .inputFinished)⟩ ::
            e.runSchedule budget calls)) ∧
    (e.finished = true → ∀ moves', (h.after moves').engine.finished = true) ∧
    (∀ budget, (e.next budget).verdict = .idle →
      let e' := (e.next budget).engine
      e'.resumption = none ∧ ∀ budget', e'.next (budget' + 1) = ⟨e', [], [], .idle⟩) ∧
    ∀ budget calls,
      let reports := (Engine.fresh m limit).runSchedule budget calls
      ∃ moves', let h' := (fresh m limit).after moves'
        (fresh m limit).Follows budget calls h' ∧
        (reports.map CallReport.engine).getLastD (Engine.fresh m limit) = h'.engine ∧
        ((∀ r ∈ reports, r.outcome ≠ .exhausted) →
          reports.flatMap (·.outcome.handed) = (fresh m limit).handed moves') := by
  intro h e
  have hfresh : (fresh m limit).Sound := sound_fresh m limit
  have hh : h.Sound := hfresh.after moves
  refine ⟨hfresh.concluded_after ⟨[], [], rfl, rfl⟩ moves, fun ha moves' => ?_, fun budget c => ?_,
    fun hf => hh.finished_after hf, fun budget hidle => ?_, fun budget calls => ?_⟩
  · obtain ⟨limit', hafter⟩ := after_of_aborted ha moves'
    intro h' e'
    have he : e' = { e with limit := limit' } := congrArg History.engine hafter
    have ha' : e'.aborted = true := by rw [he]; exact ha
    have hevents : h'.events = h.events := by rw [show h' = _ from hafter]
    have hnotes : h'.notes = h.notes := by rw [show h' = _ from hafter]
    refine ⟨⟨ha', by rw [he]; rfl, by rw [he]; rfl, by rw [he], hevents, hnotes⟩, ?_⟩
    exact ⟨Engine.feed_of_aborted ha', Engine.finish_of_aborted ha', Engine.drive_of_aborted ha',
      Engine.next_of_step (Engine.step_of_aborted ha')⟩
  · refine ⟨e.makeCall_inputFinished_iff budget c, fun hx calls => ?_⟩
    rw [Engine.runSchedule, Engine.makeCall_of_inputFinished hx]
  · -- the delivery that was not there was looked for by some work, behind which nothing can be done
    intro e'
    obtain ⟨k, hk, -⟩ := h.adds_next budget
    have hsettled : (h.works k).Settled := by
      rw [Settled, hk.engine]
      exact hh.settled_of_next hidle
    obtain ⟨hstays, hstep⟩ := (hh.works k).step_of_settled hsettled
    rw [hk.engine] at hstays hstep
    exact ⟨hstays, Engine.next_of_step hstep⟩
  · obtain ⟨h', hfollows⟩ := hfresh.exists_follows budget calls
    obtain ⟨moves', rfl, hhanded⟩ := hfollows.exists_handed
    obtain ⟨_, hadds, -⟩ := hfollows.adds
    exact ⟨moves', hfollows, hadds.engine.symm, hhanded⟩

end History

end ResumableParsing
