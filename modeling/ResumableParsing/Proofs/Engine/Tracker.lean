/-
# Line trackers show the cursor

A line tracker sees only events, and keeps positions instead of items.  What it should show can be
read off a ledger: the tracker that begins behind the committed items and then follows the cursor
over the items of the stack.  As long as the ledger is honest, every event takes this tracker along
with the ledger.  Since the ledger of an observer shows the stream up to the cursor, the tracker
shows the position of the cursor, whatever the computations do and however the engine is called.
-/
import Mathlib.Data.List.Induction
import ResumableParsing.Position
import ResumableParsing.Proofs.Engine.Ledger
import ResumableParsing.Proofs.Engine.Schedule

namespace ResumableParsing

variable {ν ο : Type}

/-! ## Following the cursor over a text -/

namespace LineTracker

/-- Follow the cursor behind a text. -/
def consumeAll (t : LineTracker) (cs : List Char) : LineTracker := cs.foldl consume t

@[simp] theorem consumeAll_nil (t : LineTracker) : t.consumeAll [] = t := rfl

@[simp] theorem consumeAll_cons (t : LineTracker) (c : Char) (cs : List Char) :
    t.consumeAll (c :: cs) = (t.consume c).consumeAll cs := rfl

/-- Characters one after the other are consumed one after the other. -/
theorem consumeAll_append (t : LineTracker) (cs ds : List Char) :
    t.consumeAll (cs ++ ds) = (t.consumeAll cs).consumeAll ds := List.foldl_append

/-- The position goes past every character that is consumed. -/
@[simp] theorem position_consumeAll (t : LineTracker) (cs : List Char) :
    (t.consumeAll cs).position = t.position.advanceAll cs := by
  induction cs generalizing t with
  | nil => rfl
  | cons c cs ih =>
    rw [consumeAll_cons, ih]
    rfl

/-- One more position is remembered for each character. -/
@[simp] theorem pending_consumeAll (t : LineTracker) (cs : List Char) :
    (t.consumeAll cs).pending = t.pending + cs.length := by
  induction cs generalizing t with
  | nil => rfl
  | cons c cs ih =>
    have hone : (t.consume c).pending = t.pending + 1 := rfl
    rw [consumeAll_cons, ih, hone, List.length_cons]
    omega

@[simp] theorem rollBack_zero (t : LineTracker) : rollBack 0 t = t := rfl

/-- The way back over one character ends where the character began. -/
@[simp] theorem rollBack_succ_consume (n : Nat) (t : LineTracker) (c : Char) :
    rollBack (n + 1) (t.consume c) = rollBack n t := rfl

/-- The way back over a text ends where the text began, line feeds or not. -/
theorem rollBack_consumeAll (t : LineTracker) (cs : List Char) :
    rollBack cs.length (t.consumeAll cs) = t := by
  -- the last character is the first to be given back, so the induction is from the end
  induction cs using List.reverseRecOn with
  | nil => rfl
  | append_singleton cs c ih =>
    have hlast : t.consumeAll (cs ++ [c]) = (t.consumeAll cs).consume c := by
      rw [consumeAll_append]
      rfl
    have hlen : (cs ++ [c]).length = cs.length + 1 := by simp
    rw [hlast, hlen, rollBack_succ_consume]
    exact ih

/-- When the line that a line feed began is given back, the tracker is in the line before it. -/
example : (fresh.consumeAll ['a', '\n', 'b']).rollBack 2 = ⟨⟨1, 1, 2⟩, [.start]⟩ := rfl

/-! ## The tracker of a ledger -/

/-- The tracker that a ledger calls for. -/
def ofLedger (l : Ledger Char) : LineTracker :=
  consumeAll ⟨Position.start.advanceAll l.committed, []⟩ l.stack

/-- The position is the one behind what is committed and what is on the stack. -/
theorem position_ofLedger (l : Ledger Char) :
    (ofLedger l).position = Position.start.advanceAll (l.committed ++ l.stack) := by
  rw [ofLedger, position_consumeAll, Position.advanceAll_append]

/-- Pending are the characters on the stack. -/
theorem pending_ofLedger (l : Ledger Char) : (ofLedger l).pending = l.stack.length := by
  rw [ofLedger, pending_consumeAll]
  exact Nat.zero_add _

/-- The tracker follows the ledger past a character. -/
theorem observe_consumed (l : Ledger Char) (c : Char) :
    (ofLedger l).observe (.consumed (ο := ο) c) = ofLedger (l.record (.consumed (ο := ο) c)) := by
  have hstack : (l.record (.consumed (ο := ο) c)).stack = l.stack ++ [c] := rfl
  rw [ofLedger, ofLedger, hstack, consumeAll_append]
  rfl

/-- What is given back is the end of the stack, so the tracker goes back to where it began. -/
theorem observe_rolledBack (l : Ledger Char) {dropped : List Char} (h : dropped <:+ l.stack) :
    (ofLedger l).observe (.rolledBack (ο := ο) dropped) =
      ofLedger (l.record (.rolledBack (ο := ο) dropped)) := by
  obtain ⟨committed, stack⟩ := l
  obtain ⟨below, hbelow⟩ := h
  have hstack : stack = below ++ dropped := hbelow.symm
  subst hstack
  have hrecord : (⟨committed, below ++ dropped⟩ : Ledger Char).record
      (.rolledBack (ο := ο) dropped) = ⟨committed, below⟩ := by
    rw [Ledger.record]
    simp
  rw [hrecord, ofLedger, ofLedger, consumeAll_append]
  exact rollBack_consumeAll _ dropped

/-- An output leaves the position and lets go of the ways back. -/
theorem observe_completed (l : Ledger Char) (o : ο) :
    (ofLedger l).observe (.completed o) = ofLedger (l.record (.completed o)) := by
  have hposition := position_ofLedger l
  show (⟨(ofLedger l).position, []⟩ : LineTracker) = _
  rw [hposition]
  rfl

/-- A tracker goes along with an honest ledger. -/
theorem observeAll_ofLedger (l : Ledger Char) {events : List (Event Char ο)}
    (h : l.Honest events) : (ofLedger l).observeAll events = ofLedger (l.replay events) := by
  induction events generalizing l with
  | nil => rfl
  | cons event events ih =>
    rw [observeAll_cons, Ledger.replay_cons]
    cases event with
    | consumed c =>
      rw [observe_consumed]
      exact ih _ h
    | rolledBack dropped =>
      obtain ⟨⟨-, hsuffix⟩, hrest⟩ := h
      rw [observe_rolledBack l hsuffix]
      exact ih _ hrest
    | completed o =>
      rw [observe_completed]
      exact ih _ h

end LineTracker

/-! ## The tracker of a history -/

namespace History

open LineTracker

variable {m : Machine Char ν ο} {h : History m}

/-- A tracker that saw all events shows the cursor, and remembers a position for each item that may
be given back. -/
theorem Told.observeAll_fresh (ht : h.Told) (hh : h.Sound) :
    let t := LineTracker.fresh.observeAll h.events
    t.position = Position.start.advanceAll (h.fed.take h.cursor) ∧
      t.pending = h.cursor - h.engine.committed := by
  intro t
  have hledger : t = ofLedger (.ofStream h.fed h.engine.committed h.cursor) := by
    rw [← ht.ledger]
    exact observeAll_ofLedger Ledger.empty ht.honest
  obtain ⟨hlo, hhi⟩ := hh.within
  constructor
  · rw [hledger, position_ofLedger, Ledger.committed_append_stack h.fed hlo]
  · rw [hledger, pending_ofLedger, Ledger.ofStream, List.length_drop, List.length_take,
      Nat.min_eq_left hhi]

/-- The cursor of a history is that of the session under way. -/
theorem Sound.cursor_of_session (hh : h.Sound) {s : Session m} (hs : h.engine.session = some s) :
    h.cursor = s.cursor := by
  have haborted : h.engine.aborted = false := by
    cases ha : h.engine.aborted with
    | false => rfl
    | true =>
      have hnone := hh.engine.ended ha
      rw [hs] at hnone
      cases hnone
  rw [hh.cursor haborted, Engine.cursor, hs]

/-- Between sessions the cursor of a history is behind what is committed. -/
theorem Sound.cursor_of_no_session (hh : h.Sound) (hs : h.engine.session = none)
    (ha : h.engine.aborted = false) : h.cursor = h.engine.committed := by
  rw [hh.cursor ha, Engine.cursor, hs]

/-- The report of a call names the call. -/
theorem call_makeCall {ι : Type} {m : Machine ι ν ο} (e : Engine m) (budget : Nat)
    (c : ScheduledCall ι) : (e.makeCall budget c).call = c.call := by
  have hmakes := makes_makeCall budget ⟨e, [], 0, [], [], [], []⟩ c
  generalize hr : e.makeCall budget c = r
  rw [hr] at hmakes
  cases hmakes with
  | refused | configured | renewed => rfl
  | taken =>
    unfold Engine.takeAfter
    split <;> rfl

/-- A tracker that no call of a schedule replaces has seen in the end what all calls report. -/
theorem getLastD_followCalls (t : LineTracker) (e : Engine m) (budget : Nat)
    {calls : List (ScheduledCall Char)} (hcalls : ∀ c ∈ calls, c.call ≠ .renewObserver) :
    (t.followCalls (e.runSchedule budget calls)).getLastD t =
      t.observeAll ((e.runSchedule budget calls).flatMap CallReport.events) := by
  induction calls generalizing t e with
  | nil => rfl
  | cons c calls ih =>
    obtain ⟨hc, hcalls⟩ := List.forall_mem_cons.mp hcalls
    have hcall : (e.makeCall budget c).call ≠ .renewObserver := by rwa [call_makeCall]
    have hfollow : t.followCalls (e.runSchedule budget (c :: calls)) =
        t.observeAll (e.makeCall budget c).events ::
          (t.observeAll (e.makeCall budget c).events).followCalls
            ((e.makeCall budget c).engine.runSchedule budget calls) := by
      rw [Engine.runSchedule, LineTracker.followCalls]
      split
      · exact absurd ‹_› hcall
      · rfl
    rw [hfollow, List.getLastD_cons, ih _ _ hcalls, Engine.runSchedule, List.flatMap_cons,
      observeAll_append]

/-- However an engine for characters is called, and at any moment: a line tracker that saw all
events shows the position behind the items before the cursor of the session under way, and remembers
as many positions as the session has gone forward; between sessions it shows the position behind
what is committed and remembers none; and once a failure was delivered it shows the position where
the failure arose.  The tracker that follows a schedule, none of whose calls replaces it, is after
the calls one that saw all events of the history of the schedule. -/
theorem tracker_shows_cursor (m : Machine Char ν ο) (limit : Option Nat)
    (moves : List (Move Char)) :
    let h := (fresh m limit).after moves
    let t := LineTracker.fresh.observeAll h.events
    (∀ s, h.engine.session = some s → s.cursor ≤ h.fed.length ∧
      t.position = Position.start.advanceAll (h.fed.take s.cursor) ∧
      s.start ≤ s.cursor ∧ t.pending = s.cursor - s.start) ∧
    (h.engine.session = none → h.engine.aborted = false →
      h.engine.committed ≤ h.fed.length ∧
      t.position = Position.start.advanceAll (h.fed.take h.engine.committed) ∧ t.pending = 0) ∧
    (∀ f n, .error (.failure f n) ∈ h.delivered → n ≤ h.fed.length ∧
      t.position = Position.start.advanceAll (h.fed.take n)) ∧
    ∀ budget calls, (∀ c ∈ calls, c.call ≠ .renewObserver) →
      let reports := (Engine.fresh m limit).runSchedule budget calls
      ∃ moves', let h' := (fresh m limit).after moves'
        (fresh m limit).Follows budget calls h' ∧
        (reports.map CallReport.engine).getLastD (Engine.fresh m limit) = h'.engine ∧
        (LineTracker.fresh.followCalls reports).getLastD .fresh =
          LineTracker.fresh.observeAll h'.events := by
  intro h t
  have hfresh : (fresh m limit).Sound := sound_fresh m limit
  have hh : h.Sound := hfresh.after moves
  have ht : h.Told := (told_fresh m limit).after hfresh moves
  obtain ⟨hposition, hpending⟩ := ht.observeAll_fresh hh
  obtain ⟨hlo, hhi⟩ := hh.within
  refine ⟨fun s hs => ?_, fun hs ha => ?_, fun f n hf => ?_, fun budget calls hcalls => ?_⟩
  · have hcursor : h.cursor = s.cursor := hh.cursor_of_session hs
    have hstart : s.start = h.engine.committed := hh.engine.start s hs
    rw [hstart, ← hcursor]
    exact ⟨hhi, hposition, hlo, hpending⟩
  · have hcursor : h.cursor = h.engine.committed := hh.cursor_of_no_session hs ha
    rw [hcursor] at hposition hpending
    refine ⟨hh.engine.committed_le, hposition, ?_⟩
    rw [hpending]
    exact Nat.sub_self _
  · have hcursor : n = h.cursor := (hh.error _ hf).2 f n rfl
    rw [hcursor]
    exact ⟨hhi, hposition⟩
  · obtain ⟨h', hfollows⟩ := hfresh.exists_follows budget calls
    obtain ⟨moves', rfl⟩ := hfollows.exists_moves
    obtain ⟨_, hadds, -⟩ := hfollows.adds
    refine ⟨moves', hfollows, hadds.engine.symm, ?_⟩
    rw [hadds.events]
    exact getLastD_followCalls .fresh _ budget hcalls

end History

end ResumableParsing
