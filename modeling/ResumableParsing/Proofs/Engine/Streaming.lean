/-
# Streaming is invisible

It does not matter how a stream is cut and when an engine is asked to work: what is delivered, what
an observer is told and what the computations are resumed with are those of an engine to which the
whole stream was fed at once.

The proof runs the two engines side by side.  The second has foreseen what the first has not been
fed yet.  Whenever the first resumes a computation, the second does the same; where the first waits,
the second stays where it is and waits for the first to catch up.
-/
import ResumableParsing.Proofs.Custody
import ResumableParsing.Proofs.Engine.Schedule

namespace ResumableParsing

variable {ι ν ο : Type}

namespace Engine

variable {m : Machine ι ν ο} {e : Engine m} {fed : List ι}

/-- A faithful computation is never refused a token: what cannot be resumed is waited for. -/
theorem Sound.step_of_stays (h : e.Sound fed) (hm : m.Faithful) (hstays : e.resumption = none) :
    e.step = ⟨e, [], [], .idle⟩ := by
  cases h.stepped with
  | idle _ eq => exact eq
  | suspended resumes | failed resumes | unproductive resumes | completed resumes =>
    rw [hstays] at resumes
    cases resumes
  | @refused s u _ active refuses _ =>
    exfalso
    obtain ⟨hasked, told, hstands⟩ := h.waits s active
    have hstart : s.start = e.committed := h.start s active
    have hle : s.start ≤ fed.length := hstart ▸ h.committed_le
    have hwithin := hstands.within hle
    rw [h.window, ← hstart] at refuses
    cases hstands with
    | fresh eq => exact hasked (congrArg Session.pending eq)
    | @waiting told t q leads asks eq =>
      have hq : s.pending = some q := congrArg Session.pending eq
      cases hr : (s.setting fed e.finished).respond s.cursor q with
      | some a =>
        rw [Session.answer_of_respond hwithin hq hr] at refuses
        cases refuses
      | none =>
        rcases Session.answer_of_not_respond (ο := ο) hwithin hq hr with ha | ⟨k, u', rfl, -⟩
        · rw [ha] at refuses
          cases refuses
        · -- the token was handed out in this session, so it is honoured
          obtain ⟨hid, hk⟩ := leads.token_within hle (hm _ _ _ _ _ hle leads asks)
          have hhonoured := Setting.respond_rollback hk s.cursor
          rw [← hid] at hhonoured
          rw [hhonoured] at hr
          cases hr

/-! ## Foreseeing the rest of the stream -/

/-- The engine when the rest of the stream has arrived and the input has ended, unless more is to
follow. -/
def foresee (e : Engine m) (rest : List ι) (ended : Bool := true) : Engine m :=
  { e with window := e.window.append rest, finished := ended }

variable {ended : Bool}

/-- An engine that foresees the rest of its stream is sound for the whole stream. -/
theorem Sound.foresee (h : e.Sound fed) (hfinished : e.finished = false) (rest : List ι) :
    (e.foresee rest ended).Sound (fed ++ rest) := h.extend hfinished rest ended

/-- The session that is next stays next. -/
theorem openSession_foresee {s : Session m} (hs : e.openSession = some s) (rest : List ι) :
    (e.foresee rest ended).openSession = some s := by
  have hsession : (e.foresee rest ended).session = e.session := rfl
  rcases openSession_eq_some hs with hactive | ⟨hnone, hmay, rfl⟩
  · rw [openSession, hsession, hactive]
  · have hmay' : ¬ (0 < (e.foresee rest ended).nextSession ∧
        (e.foresee rest ended).window.items = []) := by
      rintro ⟨hstarted, hnothing⟩
      exact hmay ⟨hstarted, (List.append_eq_nil_iff.mp hnothing).1⟩
    simp only [openSession, hsession, hnone]
    exact if_neg hmay'

/-- What is resumed now is resumed in the same way when the rest is foreseen. -/
theorem Sound.resumption_foresee (h : e.Sound fed) (hfinished : e.finished = false)
    (rest : List ι) {s : Session m} {c : Nat} {r : Option (Response ι)}
    (hr : e.resumption = some (s, c, r)) :
    (e.foresee rest ended).resumption = some (s, c, r) := by
  obtain ⟨ha, hs, ev, hanswer⟩ := resumption_eq_some hr
  obtain ⟨hstart, -, ⟨told, hstands⟩, -⟩ := h.opens hs
  have hle : s.start ≤ fed.length := hstart ▸ h.committed_le
  have hwithin := hstands.within hle
  have hanswer' : ∃ ev : List (Event ι ο),
      s.answer (e.window.append rest) ended = .ready c r ev := by
    rw [h.window, ← hstart] at hanswer
    rw [h.window, ← hstart, Window.append_of hle]
    cases hstands with
    | fresh eq =>
      rw [eq] at hanswer ⊢
      cases hanswer
      exact ⟨[], rfl⟩
    | @waiting told t q leads asks eq =>
      have hq : s.pending = some q := congrArg Session.pending eq
      obtain ⟨r', hrespond, rfl, -⟩ := (Session.answer_eq_ready_iff hwithin hq).mp hanswer
      have hwithin' : (s.setting (fed ++ rest) ended).Within s.cursor :=
        ⟨hwithin.1, by simpa [Session.setting] using Nat.le_add_right_of_le hwithin.2⟩
      exact ⟨_, Session.answer_of_respond hwithin' hq
        (Setting.respond_extend hfinished hrespond rest ended)⟩
  obtain ⟨ev', hanswer'⟩ := hanswer'
  have ha' : (e.foresee rest ended).aborted = false := ha
  have hwindow : (e.foresee rest ended).window = e.window.append rest := rfl
  have hfinished' : (e.foresee rest ended).finished = ended := rfl
  simp only [resumption, ha', openSession_foresee hs, hwindow, hfinished', hanswer',
    Bool.false_eq_true, if_false]

/-- How the cursor moved does not depend on what is foreseen behind it. -/
theorem Sound.movement_foresee (h : e.Sound fed) (rest : List ι) {here there : Nat}
    (hhere : e.committed ≤ here ∧ here ≤ fed.length)
    (hthere : e.committed ≤ there ∧ there ≤ fed.length) :
    movement (ο := ο) (e.foresee rest ended).window here there = movement e.window here there := by
  show movement (e.window.append rest) here there = _
  rw [h.window, Window.append_of h.committed_le]
  exact movement_append_of hhere hthere rest

/-- Two steps that do the same, except that the second has foreseen the rest. -/
structure Foresees (rest : List ι) (ended : Bool) (a a' : Advance m) : Prop where
  /-- The engines agree as long as no error has ended them. -/
  engine : a.engine.aborted = false → a'.engine = a.engine.foresee rest ended
  /-- An error ends both. -/
  aborted : a'.engine.aborted = a.engine.aborted
  /-- Both have committed the same. -/
  committed : a'.engine.committed = a.engine.committed
  /-- The events are the same. -/
  events : a'.events = a.events
  /-- The notes are the same. -/
  notes : a'.notes = a.notes
  /-- The verdict is the same. -/
  verdict : a'.verdict = a.verdict

/-- A step that resumes a computation is the same when the rest is foreseen, unless it completes a
session before anything was fed. -/
theorem Sound.step_foresee (h : e.Sound fed) (hfinished : e.finished = false) (rest : List ι)
    {s : Session m} {c : Nat} {r : Option (Response ι)} (hr : e.resumption = some (s, c, r))
    (hearly : fed = [] → ∀ o, .completed o ∉ e.step.events) :
    Foresees rest ended e.step (e.foresee rest ended).step := by
  have hr' : (e.foresee rest ended).resumption = some (s, c, r) :=
    h.resumption_foresee hfinished rest hr
  have hs : e.openSession = some s := (resumption_eq_some hr).2.1
  have hopens := h.opens hs
  obtain ⟨hlo, hhi⟩ := h.resumption_within hr
  have hmovement : movement (ο := ο) (e.foresee rest ended).window s.cursor c =
      movement e.window s.cursor c := by
    obtain ⟨told, hstands⟩ := hopens.stands
    have hwithin := hstands.within (hopens.start ▸ h.committed_le)
    exact h.movement_foresee rest ⟨hopens.start ▸ hwithin.1, hwithin.2⟩ ⟨hlo, hhi⟩
  have hlen : fed.length ≤ (fed ++ rest).length := by simp
  rcases h.stepped.resumed hr with
      ⟨q, ht, eq⟩ | ⟨f, ht, eq⟩ | ⟨o, u, ht, hu, eq⟩ | ⟨o, ht, hasked, hprogress, eq⟩ <;>
    rcases (h.foresee hfinished rest).stepped.resumed hr' with
      ⟨q', ht', eq'⟩ | ⟨f', ht', eq'⟩ | ⟨o', u', ht', hu', eq'⟩ |
        ⟨o', ht', hasked', hprogress', eq'⟩ <;>
    rw [ht] at ht' <;> cases ht' <;> rw [hmovement] at eq'
  · rw [eq, eq']
    exact ⟨fun _ => rfl, rfl, rfl, rfl, rfl, rfl⟩
  · rw [eq, eq']
    exact ⟨nofun, rfl, rfl, rfl, rfl, rfl⟩
  · have hsame : u' = u := by
      rcases hu with ⟨hnone, rfl⟩ | ⟨hasked, -, -, rfl⟩ <;>
        rcases hu' with ⟨hnone', rfl⟩ | ⟨hasked', -, -, rfl⟩
      · rfl
      · exact absurd hnone hasked'
      · exact absurd hnone' hasked
      · rfl
    rw [eq, eq', hsame]
    exact ⟨nofun, rfl, rfl, rfl, rfl, rfl⟩
  · -- what makes no progress now makes none when the rest is foreseen
    exfalso
    rcases hu with ⟨hnone, -⟩ | ⟨-, hstill, hlt, -⟩
    · exact hasked' hnone
    · have := hprogress' hstill
      omega
  · -- a session that took nothing was completed without input, so nothing had been fed
    exfalso
    rcases hu' with ⟨hnone, -⟩ | ⟨-, hstill, -, -⟩
    · exact hasked hnone
    · have hend : c = fed.length := hprogress hstill
      have hnothing : fed = [] := hopens.input (by rw [← hend, hstill, hopens.start])
      refine hearly hnothing o ?_
      rw [eq]
      exact List.mem_append_right _ List.mem_cons_self
  · have hwindow : Window.of (fed ++ rest) c = (Window.of fed c).append rest :=
      (Window.append_of hhi rest).symm
    rw [eq, eq', hwindow]
    exact ⟨fun _ => rfl, rfl, rfl, rfl, rfl, rfl⟩

end Engine

/-! ## Two histories side by side -/

namespace History

variable {m : Machine ι ν ο} {h h' : History m}

/-- The history is one of an engine without a limit to which more may be fed. -/
structure Flows (h : History m) : Prop where
  /-- The history is sound. -/
  sound : h.Sound
  /-- The engine has no limit. -/
  unlimited : h.engine.limit = none
  /-- The end of the input was not declared. -/
  unfinished : h.engine.finished = false

/-- An engine without a limit that was told nothing can be fed. -/
theorem flows_fresh (m : Machine ι ν ο) : (fresh m none).Flows := ⟨sound_fresh m none, rfl, rfl⟩

/-- Work neither limits an engine nor ends its input. -/
theorem Flows.work (hf : h.Flows) : (h.move .work).Flows where
  sound := hf.sound.work
  unlimited := hf.sound.engine.stepped.keeps.1.trans hf.unlimited
  unfinished := hf.sound.engine.stepped.keeps.2.trans hf.unfinished

/-- However long one works, more may be fed. -/
theorem Flows.works (hf : h.Flows) (k : Nat) : (h.works k).Flows := by
  induction k generalizing h with
  | zero => exact hf
  | succ k ih => exact ih hf.work

/-- What is fed arrives as long as no error has ended the engine. -/
theorem Flows.engine_feed (hf : h.Flows) (ha : h.engine.aborted = false) (xs : List ι) :
    (h.move (.feed xs)).engine = { h.engine with window := h.engine.window.append xs } := by
  show (h.engine.feed xs).1 = _
  rw [Engine.feed_of_unlimited hf.unlimited ha hf.unfinished]

/-- After feeding, more may be fed. -/
theorem Flows.feed (hf : h.Flows) (xs : List ι) : (h.move (.feed xs)).Flows := by
  cases ha : h.engine.aborted with
  | true =>
    rw [move_feed_of_refused (.inl ha)]
    exact hf
  | false =>
    have hengine := hf.engine_feed ha xs
    exact ⟨hf.sound.feed xs, by rw [hengine]; exact hf.unlimited,
      by rw [hengine]; exact hf.unfinished⟩

/-- As long as nothing was fed, no session completes in the next steps. -/
def Patient (h : History m) (k : Nat) : Prop :=
  h.fed = [] → ∀ i < k, ∀ o, .completed o ∉ (h.works i).engine.step.events

/-- Patience is used up step by step. -/
theorem Patient.works {j k : Nat} (hp : h.Patient (j + k)) : (h.works j).Patient k := by
  intro hfed i hi
  rw [← works_add]
  exact hp (by rwa [fed_works] at hfed) (j + i) (Nat.add_lt_add_left hi j)

/-- Whoever waits longer waits for less. -/
theorem Patient.mono {j k : Nat} (hp : h.Patient k) (hjk : j ≤ k) : h.Patient j := by
  intro hfed i hi
  exact hp hfed i (by omega)

/-- The same has happened in both histories, but for when the items arrived. -/
structure Agrees (h h' : History m) : Prop where
  /-- The same was delivered. -/
  delivered : h'.delivered = h.delivered
  /-- The observer was told the same. -/
  events : h'.events = h.events
  /-- The computations were resumed with the same. -/
  told : h'.told = h.told
  /-- The computations noted the same. -/
  notes : h'.notes = h.notes
  /-- The cursor is at the same place. -/
  cursor : h'.cursor = h.cursor
  /-- The same is committed. -/
  committed : h'.engine.committed = h.engine.committed
  /-- An error has ended both engines, or none. -/
  aborted : h'.engine.aborted = h.engine.aborted

/-- The same has happened in both histories, and the second has foreseen the rest of the stream and
its end, unless more is to follow. -/
structure Ahead (rest : List ι) (h h' : History m) (ended : Bool := true) : Prop
    extends Agrees h h' where
  /-- The engines agree as long as no error has ended them. -/
  engine : h.engine.aborted = false → h'.engine = h.engine.foresee rest ended

/-- The same has happened in both histories, and their engines are the same. -/
structure Level (h h' : History m) : Prop extends Agrees h h' where
  /-- The engines are the same as long as no error has ended them. -/
  engine : h.engine.aborted = false → h'.engine = h.engine

section Level

/-- Work goes on in the same way when the engines are the same. -/
theorem Level.work (hl : h.Level h') : (h.move .work).Level (h'.move .work) := by
  cases ha : h.engine.aborted with
  | true =>
    rwa [move_work_of_aborted ha, move_work_of_aborted (hl.aborted.trans ha)]
  | false =>
    have hengine := hl.engine ha
    refine ⟨⟨?_, ?_, ?_, ?_, ?_, ?_, ?_⟩, fun _ => ?_⟩ <;> simp only [move, hengine]
    · rw [hl.delivered]
    · rw [hl.events]
    · rw [hl.told]
    · rw [hl.notes]
    · rw [hl.cursor]

/-- Engines that are the same do the same work. -/
theorem Level.works (hl : h.Level h') (k : Nat) : (h.works k).Level (h'.works k) := by
  induction k generalizing h h' with
  | zero => exact hl
  | succ k ih => exact ih hl.work

/-- Nothing can be done in both histories, or something in both. -/
theorem Level.settled_iff (hl : h.Level h') : h'.Settled ↔ h.Settled := by
  cases ha : h.engine.aborted with
  | true => exact iff_of_true (settled_of_aborted (hl.aborted.trans ha)) (settled_of_aborted ha)
  | false => rw [Settled, Settled, hl.engine ha]

end Level

section Ahead

variable {rest : List ι} {ended : Bool}

/-- Foreseeing the whole stream, an engine is ahead of one to which nothing was fed. -/
theorem ahead_fresh (m : Machine ι ν ο) (rest : List ι) :
    (fresh m none).Ahead rest ((fresh m none).after [.feed rest, .finish]) :=
  ⟨⟨rfl, rfl, rfl, rfl, rfl, rfl, rfl⟩, fun _ => rfl⟩

/-- The same holds if more is to follow the rest. -/
theorem ahead_fresh_feed (m : Machine ι ν ο) (rest : List ι) :
    (fresh m none).Ahead rest ((fresh m none).move (.feed rest)) false :=
  ⟨⟨rfl, rfl, rfl, rfl, rfl, rfl, rfl⟩, fun _ => rfl⟩

/-- What arrives now was foreseen. -/
theorem Ahead.feed {xs : List ι} (ha : h.Ahead (xs ++ rest) h' ended) (hf : h.Flows) :
    (h.move (.feed xs)).Ahead rest h' ended := by
  cases haborted : h.engine.aborted with
  | true =>
    -- after an error the items are refused, and nothing more is said about the engines
    rw [move_feed_of_refused (.inl haborted)]
    exact { ha with engine := fun hrunning => by simp [haborted] at hrunning }
  | false =>
    have hengine := hf.engine_feed haborted xs
    refine ⟨⟨ha.delivered, ha.events, ha.told, ha.notes, ha.cursor, ?_, ?_⟩, fun _ => ?_⟩ <;>
      rw [hengine]
    · exact ha.committed
    · exact ha.aborted
    · rw [ha.engine haborted]
      simp [Engine.foresee, Window.append, List.append_assoc]

/-- When the stream ends there is nothing left to foresee. -/
theorem Ahead.finish (ha : h.Ahead [] h') : (h.move .finish).Level h' := by
  have hengine : (h.move .finish).engine = h.engine.finish.1 := rfl
  cases haborted : h.engine.aborted with
  | true =>
    rw [Engine.finish_of_ended (.inl haborted)] at hengine
    refine ⟨⟨ha.delivered, ha.events, ha.told, ha.notes, ha.cursor, ?_, ?_⟩, fun hrunning => ?_⟩
    · rw [hengine]; exact ha.committed
    · rw [hengine]; exact ha.aborted
    · rw [hengine, haborted] at hrunning
      cases hrunning
  | false =>
    have hfinish : h.engine.finish.1 = { h.engine with finished := true } := by
      simp [Engine.finish, haborted]
    rw [hfinish] at hengine
    refine ⟨⟨ha.delivered, ha.events, ha.told, ha.notes, ha.cursor, ?_, ?_⟩, fun _ => ?_⟩ <;>
      rw [hengine]
    · exact ha.committed
    · exact ha.aborted
    · rw [ha.engine haborted]
      simp [Engine.foresee, Window.append]

/-- A step that is not idle is the same in both histories. -/
theorem Ahead.work (ha : h.Ahead rest h' ended) (hm : m.Faithful) (hf : h.Flows)
    (hp : h.Patient 1) (hs : ¬ h.Settled) :
    ¬ h'.Settled ∧ (h.move .work).Ahead rest (h'.move .work) ended := by
  have haborted : h.engine.aborted = false :=
    Bool.eq_false_iff.mpr fun haborted => hs (settled_of_aborted haborted)
  cases hr : h.engine.resumption with
  | none =>
    refine absurd ?_ hs
    rw [Settled, hf.sound.engine.step_of_stays hm hr]
  | some resumed =>
    obtain ⟨s, c, r⟩ := resumed
    have hengine := ha.engine haborted
    have hr' : (h.engine.foresee rest ended).resumption = some (s, c, r) :=
      hf.sound.engine.resumption_foresee hf.unfinished rest hr
    have hstep : Engine.Foresees rest ended h.engine.step (h.engine.foresee rest ended).step :=
      hf.sound.engine.step_foresee hf.unfinished rest hr fun hfed => hp hfed 0 Nat.one_pos
    refine ⟨?_, ⟨⟨?_, ?_, ?_, ?_, ?_, ?_, ?_⟩, fun hrunning => ?_⟩⟩
    · rw [Settled, hengine, hstep.verdict]
      exact hs
    all_goals simp only [move, hengine, hr, hr']
    · rw [hstep.verdict, ha.delivered]
    · rw [hstep.events, ha.events]
    · rw [ha.told]
    · rw [hstep.notes, ha.notes]
    · exact hstep.committed
    · exact hstep.aborted
    · exact hstep.engine hrunning

/-- Where the first history waits the second stays, and otherwise both do the same. -/
theorem Ahead.works (ha : h.Ahead rest h' ended) (hm : m.Faithful) (hf : h.Flows) {k : Nat}
    (hp : h.Patient k) : ∃ j, (h.works k).Ahead rest (h'.works j) ended := by
  induction k generalizing h h' with
  | zero => exact ⟨0, ha⟩
  | succ k ih =>
    -- a settled history does not change, so the second need not do anything either
    by_cases hs : h.Settled
    · rw [hf.sound.works_of_settled hs]
      exact ⟨0, ha⟩
    · have hp1 : h.Patient 1 := hp.mono (Nat.le_add_left 1 k)
      have hpk : (h.move .work).Patient k := Patient.works (j := 1) (by rwa [Nat.add_comm])
      obtain ⟨j, hj⟩ := ih (ha.work hm hf hp1 hs).2 hf.work hpk
      exact ⟨j + 1, hj⟩

/-- When nothing can be done with the whole stream, nothing can be done with a part of it. -/
theorem Ahead.settled (ha : h.Ahead rest h' ended) (hm : m.Faithful) (hf : h.Flows) {n : Nat}
    (hp : h.Patient (n + 1)) (hn : (h'.works n).Settled) : (h.works n).Settled := by
  induction n generalizing h h' with
  | zero => exact Classical.byContradiction fun hs => (ha.work hm hf hp hs).1 hn
  | succ n ih =>
    by_cases hs : h.Settled
    · rwa [hf.sound.works_of_settled hs]
    · have hp1 : h.Patient 1 := hp.mono (Nat.le_add_left 1 (n + 1))
      have hpn : (h.move .work).Patient (n + 1) := Patient.works (j := 1) (by rwa [Nat.add_comm])
      exact ih (ha.work hm hf hp1 hs).2 hf.work hpn hn

end Ahead

end History

/-! ## Schedules -/

/-- The items that a call brings. -/
def Call.items : Call ι → List ι
  | .feed xs | .drive xs _ => xs
  | _ => []

/-- The call is one that is made while more input may follow. -/
def Call.Streams : Call ι → Prop
  | .feed _ | .drive _ true | .outputs => True
  | _ => False

/-- The call is one that declares the end of the input. -/
def Call.Closes : Call ι → Prop
  | .finish | .drive _ false => True
  | _ => False

/-- A call made while more input may follow feeds its items, or has none. -/
theorem Call.Streams.moves {call : Call ι} (hc : call.Streams) :
    call.moves = [.feed call.items] ∨ call.moves = [] ∧ call.items = [] := by
  cases call with
  | feed xs => exact .inl rfl
  | outputs => exact .inr ⟨rfl, rfl⟩
  | drive xs streaming =>
    cases streaming with
    | true => exact .inl rfl
    | false => exact hc.elim
  | finish | configure | renewObserver => exact hc.elim

namespace History

variable {m : Machine ι ν ο} {h h' : History m} {call : Call ι} {c : ScheduledCall ι}
  {calls : List (ScheduledCall ι)} {rest : List ι} {budget : Nat}

/-- A call that only feeds leaves an engine that can be fed. -/
theorem Flows.moves (hf : h.Flows) (hc : call.Streams) : (h.after call.moves).Flows := by
  rcases hc.moves with hmoves | ⟨hmoves, -⟩ <;> rw [hmoves]
  · exact hf.feed call.items
  · exact hf

/-- What a call feeds was foreseen on the other side. -/
theorem Ahead.moves (ha : h.Ahead (call.items ++ rest) h') (hf : h.Flows) (hc : call.Streams) :
    (h.after call.moves).Ahead rest h' := by
  rcases hc.moves with hmoves | ⟨hmoves, hitems⟩ <;> rw [hmoves]
  · exact ha.feed hf
  · rwa [hitems] at ha

/-- The call that declares the end of the input brings what was foreseen. -/
theorem Ahead.close (ha : h.Ahead call.items h') (hf : h.Flows) (hc : call.Closes) :
    (h.after call.moves).Level h' := by
  cases call with
  | finish => exact ha.finish
  | drive xs streaming =>
    cases streaming with
    | true => exact hc.elim
    | false =>
      have hfeed : (h.move (.feed xs)).Ahead [] h' :=
        Ahead.feed (by rwa [List.append_nil]) hf
      exact hfeed.finish
  | feed | outputs | configure | renewObserver => exact hc.elim

/-- A call makes no move after the end. -/
theorem after_moves_of_aborted (ha : h.engine.aborted = true) (hc : call.Streams) :
    h.after call.moves = h := by
  rcases hc.moves with hmoves | ⟨hmoves, -⟩ <;> rw [hmoves]
  · exact move_feed_of_refused (.inl ha) call.items
  · rfl

/-- A call feeds its items as long as no error has ended the engine. -/
theorem Flows.fed_moves (hf : h.Flows) (ha : h.engine.aborted = false) (hc : call.Streams) :
    (h.after call.moves).fed = h.fed ++ call.items := by
  rcases hc.moves with hmoves | ⟨hmoves, hitems⟩ <;> rw [hmoves]
  · exact fed_move_feed ha hf.unfinished call.items
  · rw [hitems, List.append_nil]
    rfl

/-- What a call makes available is taken.  A call that is refused leaves nothing to be done, since
an error has ended the engine. -/
theorem Flows.serves (hf : h.Flows) (hc : c.call.Streams ∨ c.call.Closes) (budget : Nat) :
    ∃ k, (h.after c.call.moves).Serves budget c.take k (h.engine.makeCall budget c) := by
  have hmakes := makes_makeCall budget h c
  generalize h.engine.makeCall budget c = r at hmakes
  cases hmakes with
  | taken => exact (hf.sound.after c.call.moves).serves_takeAfter c.call budget c.take
  | refused x ended =>
    have ha : (h.after c.call.moves).engine.aborted = true := by
      rcases ended with ha | hfinished
      · exact ha
      · rw [hf.unfinished] at hfinished
        cases hfinished
    exact ⟨0, ⟨[], .refl _, fun _ => rfl⟩, nofun,
      fun _ _ => ⟨Nat.zero_le budget, settled_of_aborted ha⟩⟩
  | configured _ eq | renewed eq =>
    rw [eq] at hc
    rcases hc with hc | hc <;> exact hc.elim

/-- What no report tells has not happened in any step. -/
theorem patient_of_events {k : Nat} {events : List (Event ι ο)}
    (heq : (h.works k).events = h.events ++ events)
    (hquiet : h.engine.aborted = false → h.fed = [] → ∀ o, .completed o ∉ events) :
    h.Patient k := by
  intro hfed i hi o ho
  cases ha : h.engine.aborted with
  | true =>
    have hstep : h.engine.step = ⟨h.engine, [], [], .idle⟩ := if_pos ha
    rw [works_of_aborted ha, hstep] at ho
    cases ho
  | false =>
    rw [events_works] at heq
    refine hquiet ha hfed o ?_
    rw [← List.append_cancel_left heq]
    exact List.mem_flatMap.mpr ⟨i, List.mem_range.mpr hi, ho⟩

/-- As long as nothing was fed, no session completes in the calls of the schedule. -/
def Quiet (h : History m) (budget : Nat) (calls : List (ScheduledCall ι)) : Prop :=
  h.engine.aborted = false → ∀ early, early <+: calls →
    h.fed ++ early.flatMap (·.call.items) = [] →
      ∀ r ∈ h.engine.runSchedule budget early, ∀ o, .completed o ∉ r.events

/-- The first call of a quiet schedule completes nothing as long as nothing was fed. -/
theorem Quiet.head (hq : h.Quiet budget (c :: calls)) (ha : h.engine.aborted = false)
    (hfed : h.fed ++ c.call.items = []) (o : ο) :
    .completed o ∉ (h.engine.makeCall budget c).events := by
  refine hq ha [c] ⟨calls, rfl⟩ ?_ _ (List.mem_singleton.mpr rfl) o
  rwa [List.flatMap_singleton]

/-- The calls behind the first one are quiet as well. -/
theorem Quiet.tail (hq : h.Quiet budget (c :: calls)) (hf : h.Flows) (hc : c.call.Streams)
    {k : Nat} (hr : h.Reports ((h.after c.call.moves).works k) (h.engine.makeCall budget c)) :
    ((h.after c.call.moves).works k).Quiet budget calls := by
  intro ha early hearly hfed r hmem
  have hrunning : h.engine.aborted = false := by
    cases haborted : h.engine.aborted with
    | false => rfl
    | true =>
      rw [after_moves_of_aborted haborted hc, works_of_aborted haborted, haborted] at ha
      cases ha
  rw [fed_works, hf.fed_moves hrunning hc, List.append_assoc] at hfed
  rw [hr.engine] at hmem
  obtain ⟨later, rfl⟩ := hearly
  refine hq hrunning (c :: early) ⟨later, rfl⟩ ?_ r (List.mem_cons_of_mem _ hmem)
  rwa [List.flatMap_cons]

/-- A call goes on in step with the whole stream, and uses up no budget that suffices for the whole
stream. -/
theorem Ahead.serve (ha : h.Ahead (c.call.items ++ rest) h') (hm : m.Faithful) (hf : h.Flows)
    (hh : h'.Sound) (hc : c.call.Streams) (hq : h.Quiet budget (c :: calls)) :
    ∃ k, h.Reports ((h.after c.call.moves).works k) (h.engine.makeCall budget c) ∧
      (∃ j, ((h.after c.call.moves).works k).Ahead rest (h'.works j)) ∧
      ∀ n < budget, (h'.works n).Settled → (h.engine.makeCall budget c).outcome ≠ .exhausted := by
  obtain ⟨k, hk⟩ := hf.serves (.inl hc) budget
  have hmoved := ha.moves hf hc
  have hflows := hf.moves hc
  obtain ⟨_, hadds, -⟩ := hk.reports
  have hpatient : (h.after c.call.moves).Patient k := by
    refine patient_of_events hadds.events fun haborted hfed => ?_
    cases hrunning : h.engine.aborted with
    | true =>
      rw [after_moves_of_aborted hrunning hc, hrunning] at haborted
      cases haborted
    | false =>
      rw [hf.fed_moves hrunning hc] at hfed
      exact hq.head hrunning hfed
  refine ⟨k, hk.reports.of_moves, hmoved.works hm hflows hpatient, fun n hn hsettled hex => ?_⟩
  -- work that uses up the budget would keep the other engine busy for longer than it can be
  obtain ⟨i, rfl, hbusy⟩ := hk.tires hex
  obtain ⟨j, hj⟩ := hmoved.works hm hflows (hpatient.mono (Nat.le_add_right i budget))
  refine hbusy n hn (hj.settled hm (hflows.works i) (hpatient.works.mono hn) ?_)
  rw [← works_add]
  exact hh.settled_mono (Nat.le_add_left n j) hsettled

/-- A schedule goes on in step with the whole stream. -/
theorem Ahead.schedule (ha : h.Ahead (calls.flatMap (·.call.items) ++ rest) h')
    (hm : m.Faithful) (hf : h.Flows) (hh : h'.Sound) (hcalls : ∀ c ∈ calls, c.call.Streams)
    (hq : h.Quiet budget calls) :
    ∃ h₁, h.Follows budget calls h₁ ∧ h₁.Flows ∧ (∃ j, h₁.Ahead rest (h'.works j)) ∧
      ∀ n < budget, (h'.works n).Settled →
        ∀ r ∈ h.engine.runSchedule budget calls, r.outcome ≠ .exhausted := by
  -- the induction is on the calls; the second engine goes on from where the calls before led it
  induction calls generalizing h h' with
  | nil => exact ⟨h, .nil h, hf, ⟨0, ha⟩, fun _ _ _ => List.forall_mem_nil _⟩
  | cons c calls ih =>
    have hc : c.call.Streams := hcalls c List.mem_cons_self
    rw [List.flatMap_cons, List.append_assoc] at ha
    obtain ⟨k, hreports, ⟨j, hj⟩, hlasts⟩ := ha.serve hm hf hh hc hq
    obtain ⟨h₁, hfollows, hflows, ⟨j', hj'⟩, hlast⟩ :=
      ih hj ((hf.moves hc).works k) (hh.works j)
        (fun c' hc' => hcalls c' (List.mem_cons_of_mem c hc')) (hq.tail hf hc hreports)
    refine ⟨h₁, .cons hreports hfollows, hflows, ⟨j + j', ?_⟩, fun n hn hsettled => ?_⟩
    · rwa [works_add]
    · refine List.forall_mem_cons.mpr ⟨hlasts n hn hsettled, ?_⟩
      rw [← hreports.engine]
      refine hlast n hn ?_
      rw [← works_add]
      exact hh.settled_mono (Nat.le_add_left n j) hsettled

/-- A schedule that closes the stream comes to an end where all work on the whole stream does, and
uses up no budget that suffices for the whole stream. -/
theorem Ahead.close_schedule {last : Call ι}
    (ha : h.Ahead (calls.flatMap (·.call.items) ++ last.items) h') (hm : m.Faithful)
    (hf : h.Flows) (hh : h'.Sound) (hcalls : ∀ c ∈ calls, c.call.Streams) (hlast : last.Closes)
    (hq : h.Quiet budget calls) :
    ∃ h₁, h.Follows budget (calls ++ [⟨last, none⟩]) h₁ ∧
      ((∀ r ∈ h.engine.runSchedule budget (calls ++ [⟨last, none⟩]), r.outcome ≠ .exhausted) →
        ∃ n, (h'.works n).Settled ∧ h₁.Agrees (h'.works n)) ∧
      ∀ n < budget, (h'.works n).Settled →
        ∀ r ∈ h.engine.runSchedule budget (calls ++ [⟨last, none⟩]), r.outcome ≠ .exhausted := by
  obtain ⟨h₁, hfollows, hflows, ⟨j, hj⟩, hsuffices⟩ := ha.schedule hm hf hh hcalls hq
  have hlevel := hj.close hflows hlast
  have hsound : (h₁.after last.moves).Sound := hflows.sound.after _
  obtain ⟨k, hk⟩ := hflows.serves (c := ⟨last, none⟩) (.inr hlast) budget
  have hreports : h.engine.runSchedule budget (calls ++ [⟨last, none⟩]) =
      h.engine.runSchedule budget calls ++ [h₁.engine.makeCall budget ⟨last, none⟩] :=
    hfollows.runSchedule_append
  rw [hreports]
  -- once the end is declared the engines are the same, and so is all that they do
  refine ⟨_, hfollows.append (.cons hk.reports.of_moves (.nil _)), fun hfinished => ?_,
    fun n hn hsettled => List.forall_mem_append.mpr ⟨hsuffices n hn hsettled, ?_⟩⟩
  · have hend : ((h₁.after last.moves).works k).Settled :=
      (hk.settles rfl (hfinished _ (List.mem_append_right _ List.mem_cons_self))).2
    refine ⟨j + k, ?_, ?_⟩ <;> rw [works_add]
    · exact (hlevel.works k).settled_iff.mpr hend
    · exact (hlevel.works k).toAgrees
  · refine List.forall_mem_singleton.mpr fun hex => ?_
    have hend : ((h₁.after last.moves).works n).Settled := by
      refine (hlevel.works n).settled_iff.mp ?_
      rw [← works_add]
      exact hh.settled_mono (Nat.le_add_left n j) hsettled
    exact Nat.not_le.mpr hn (hsound.le_of_tires (hk.tires hex) hend)

end History

/-- It does not matter how a stream is cut and how often deliveries are asked for, provided no
session completes before anything was fed.  An engine is fed the stream in pieces by the calls of a
schedule, the last of which declares the end and takes all that is available; another is driven with
the whole stream at once.  The calls to the first come to an end just when the call to the second
does, and then both have delivered the same, told an observer the same, and resumed the computations
of the same sessions with the same answers. -/
theorem Machine.Faithful.streaming_invisible {m : Machine ι ν ο} (hm : m.Faithful)
    (calls : List (ScheduledCall ι)) (hcalls : ∀ c ∈ calls, c.call.Streams)
    (last : Call ι) (hlast : last.Closes) (budget : Nat)
    (hquiet : ∀ early, early <+: calls → early.flatMap (·.call.items) = [] →
      ∀ r ∈ (Engine.fresh m none).runSchedule budget early, ∀ o, .completed o ∉ r.events) :
    let schedule := calls ++ [⟨last, none⟩]
    let reports := (Engine.fresh m none).runSchedule budget schedule
    let atOnce : ScheduledCall ι := ⟨.drive (schedule.flatMap (·.call.items)) false, none⟩
    let whole b := (Engine.fresh m none).makeCall b atOnce
    ((∀ r ∈ reports, r.outcome ≠ .exhausted) → ∃ b, (whole b).outcome ≠ .exhausted) ∧
    ∀ b, (whole b).outcome ≠ .exhausted →
      (b < budget → ∀ r ∈ reports, r.outcome ≠ .exhausted) ∧
      ((∀ r ∈ reports, r.outcome ≠ .exhausted) →
        reports.flatMap (·.outcome.delivered) = (whole b).outcome.delivered ∧
        reports.flatMap CallReport.events = (whole b).events ∧
        reports.flatMap CallReport.notes = (whole b).notes ∧
        ((reports.map CallReport.engine).getLastD (Engine.fresh m none)).committed =
          (whole b).engine.committed ∧
        ∃ streamed fedAtOnce : History m,
          (History.fresh m none).Follows budget schedule streamed ∧
          (History.fresh m none).Follows b [atOnce] fedAtOnce ∧
          streamed.told = fedAtOnce.told) := by
  intro schedule reports atOnce whole
  let w := (History.fresh m none).after atOnce.call.moves
  have hflows : (History.fresh m none).Flows := History.flows_fresh m
  have hsound : w.Sound := hflows.sound.after _
  have hwhole (b : Nat) : ∃ k, w.Serves b none k (whole b) :=
    hflows.serves (c := atOnce) (.inr trivial) b
  have hitems : schedule.flatMap (·.call.items) = calls.flatMap (·.call.items) ++ last.items := by
    rw [List.flatMap_append, List.flatMap_singleton]
  have hahead : (History.fresh m none).Ahead (calls.flatMap (·.call.items) ++ last.items) w := by
    rw [← hitems]
    exact History.ahead_fresh m _
  obtain ⟨streamed, hstreamed, hends, hsuffices⟩ :=
    hahead.close_schedule hm hflows hsound hcalls hlast
      fun _ early hearly hfed => hquiet early hearly hfed
  refine ⟨fun hfinished => ?_, fun b hb => ?_⟩
  · obtain ⟨n, hn, -⟩ := hends hfinished
    refine ⟨n + 1, fun hex => ?_⟩
    obtain ⟨k, hk⟩ := hwhole (n + 1)
    exact Nat.not_succ_le_self n (hsound.le_of_tires (hk.tires hex) hn)
  · obtain ⟨k, hk⟩ := hwhole b
    obtain ⟨hle, hk'⟩ := hk.settles rfl hb
    refine ⟨fun hlt => hsuffices k (Nat.lt_of_le_of_lt hle hlt) hk', fun hfinished => ?_⟩
    obtain ⟨n, hn, hagrees⟩ := hends hfinished
    rw [hsound.works_unique hn hk'] at hagrees
    have hatOnce : (History.fresh m none).Follows b [atOnce] (w.works k) :=
      .cons hk.reports.of_moves (.nil _)
    -- both histories began with nothing, so what they have in common is what the calls report
    obtain ⟨delivered, hadds, hdelivered⟩ := hstreamed.adds
    obtain ⟨delivered', hadds', hdelivered'⟩ := hk.reports.of_moves
    have hd : delivered = delivered' :=
      hadds.delivered.symm.trans (hagrees.delivered.symm.trans hadds'.delivered)
    refine ⟨?_, ?_, ?_, ?_, streamed, _, hstreamed, hatOnce, hagrees.told.symm⟩
    · rw [← hdelivered' hb, ← hd, hdelivered hfinished]
      rfl
    · exact hadds.events.symm.trans (hagrees.events.symm.trans hadds'.events)
    · exact hadds.notes.symm.trans (hagrees.notes.symm.trans hadds'.notes)
    · rw [← hadds'.engine, hagrees.committed, hadds.engine]
      rfl

/-- An engine that reads two words which begin alike is asked before anything arrives, fed a letter,
driven with the next two, and driven with the last when the stream ends: it delivers both words, as
it does when it is driven with all letters at once. -/
theorem Grammar.words_delivered_in_pieces :
    ((Engine.fresh (twoWords.parser noRules 0) none).runSchedule 40
        ([⟨.outputs, some 1⟩, ⟨.feed ['a'], some 0⟩, ⟨.drive ['c', 'a'] true, none⟩] ++
          [⟨.drive ['b'] false, none⟩])).flatMap (·.outcome.delivered) =
      ((Engine.fresh (twoWords.parser noRules 0) none).makeCall 39
        ⟨.drive ['a', 'c', 'a', 'b'] false, none⟩).outcome.delivered := by
  have hearly : ∀ early, early <+: [⟨.outputs, some 1⟩, ⟨.feed ['a'], some 0⟩,
      ⟨.drive ['c', 'a'] true, none⟩] → early.flatMap (·.call.items) = [] →
      ∀ r ∈ (Engine.fresh (twoWords.parser noRules 0) none).runSchedule 40 early,
        ∀ o, .completed o ∉ r.events := by
    intro early hprefix hitems
    -- nothing is fed by no call or by the first only, and then the session waits
    rcases List.prefix_cons_iff.mp hprefix with rfl | ⟨later, rfl, hlater⟩
    · exact fun r hr => absurd hr List.not_mem_nil
    · rcases List.prefix_cons_iff.mp hlater with rfl | ⟨rest, rfl, -⟩
      · intro r hr o ho
        cases List.mem_singleton.mp hr
        cases ho
      · cases hitems
  have hstreaming := (parser_faithful plain_noRules 0 plain_twoWords).streaming_invisible _
    (by simp [Call.Streams]) (.drive ['b'] false) trivial 40 hearly
  have hwhole := hstreaming.2 39 nofun
  exact (hwhole.2 (hwhole.1 (by decide))).1

end ResumableParsing
