/-
# The ledger of an observer

An observer sees only events.  It can keep a ledger: an item that is consumed is pushed on a stack,
items that are given back are popped from it, and an output moves the stack to the end of a list of
committed items.  Whatever the computations do, and however the engine is called, the ledger shows
the stream up to the cursor.
-/
import ResumableParsing.Proofs.Engine.History

namespace ResumableParsing

variable {ι ν ο : Type}

/-! ## Ledgers -/

/-- What an observer knows of the stream. -/
structure Ledger (ι : Type) where
  /-- The items that outputs have taken. -/
  committed : List ι
  /-- The items behind the cursor that may still be given back, the last consumed last. -/
  stack : List ι

namespace Ledger

/-- The ledger before any event. -/
def empty : Ledger ι := ⟨[], []⟩

/-- Enter an event. -/
def record (l : Ledger ι) : Event ι ο → Ledger ι
  | .consumed x => { l with stack := l.stack ++ [x] }
  | .rolledBack dropped => { l with stack := l.stack.take (l.stack.length - dropped.length) }
  | .completed _ => ⟨l.committed ++ l.stack, []⟩

/-- Enter events in order. -/
def replay (l : Ledger ι) (events : List (Event ι ο)) : Ledger ι := events.foldl record l

/-- Whenever items are given back, there are some, and they are the last of the stack. -/
def Honest (l : Ledger ι) : List (Event ι ο) → Prop
  | [] => True
  | .rolledBack dropped :: events =>
    (dropped ≠ [] ∧ dropped <:+ l.stack) ∧ (l.record (ο := ο) (.rolledBack dropped)).Honest events
  | event :: events => (l.record event).Honest events

@[simp] theorem replay_nil (l : Ledger ι) : l.replay ([] : List (Event ι ο)) = l := rfl

@[simp] theorem replay_cons (l : Ledger ι) (event : Event ι ο) (events : List (Event ι ο)) :
    l.replay (event :: events) = (l.record event).replay events := rfl

/-- Events one after the other are recorded one after the other. -/
theorem replay_append (l : Ledger ι) (events events' : List (Event ι ο)) :
    l.replay (events ++ events') = (l.replay events).replay events' := List.foldl_append

/-- A ledger stays honest if it is over some events and then over the others. -/
theorem honest_append {l : Ledger ι} {events events' : List (Event ι ο)} :
    l.Honest (events ++ events') ↔ l.Honest events ∧ (l.replay events).Honest events' := by
  induction events generalizing l with
  | nil => simp [Honest]
  | cons event events ih =>
    cases event with
    | rolledBack dropped =>
      simp only [List.cons_append, Honest, ih, replay_cons]
      exact and_assoc.symm
    | consumed x | completed o =>
      simp only [List.cons_append, Honest, ih, replay_cons]

/-- What an honest ledger is told to give back is the end of its stack. -/
theorem Honest.suffix {l : Ledger ι} {events before after : List (Event ι ο)} {dropped : List ι}
    (h : l.Honest events) (heq : events = before ++ .rolledBack dropped :: after) :
    dropped ≠ [] ∧ dropped <:+ (l.replay before).stack := by
  rw [heq] at h
  exact (honest_append.mp h).2.1

/-! ## The ledger of a stream -/

/-- The ledger that shows a stream up to the cursor `c`, of which `k` items are committed. -/
def ofStream (xs : List ι) (k c : Nat) : Ledger ι := ⟨xs.take k, (xs.take c).drop k⟩

/-- The stack at one place is the stack at an earlier place and what lies between them. -/
theorem stack_split (xs : List ι) {k lo hi : Nat} (hk : k ≤ lo) (hlo : lo ≤ hi)
    (hhi : hi ≤ xs.length) :
    (xs.take hi).drop k = (xs.take lo).drop k ++ (xs.drop lo).take (hi - lo) := by
  have htake : xs.take hi = xs.take lo ++ (xs.drop lo).take (hi - lo) := by
    rw [← List.take_add, Nat.add_sub_cancel' hlo]
  rw [htake, List.drop_append_of_le_length]
  rw [List.length_take]
  omega

/-- What is committed and what is on the stack make up the stream to the cursor. -/
theorem committed_append_stack (xs : List ι) {k c : Nat} (h : k ≤ c) :
    (ofStream xs k c).committed ++ (ofStream xs k c).stack = xs.take c := by
  have htake : xs.take k = (xs.take c).take k := by rw [List.take_take, Nat.min_eq_left h]
  rw [ofStream, htake, List.take_append_drop]

/-- The ledger does not depend on what arrives later. -/
theorem ofStream_append {xs : List ι} {k c : Nat} (hk : k ≤ c) (hc : c ≤ xs.length)
    (ys : List ι) : ofStream (xs ++ ys) k c = ofStream xs k c := by
  rw [ofStream, List.take_append_of_le_length (Nat.le_trans hk hc),
    List.take_append_of_le_length hc, ofStream]

/-- When a session completes, what it took is committed. -/
theorem record_completed (xs : List ι) {k c : Nat} (h : k ≤ c) (o : ο) :
    (ofStream xs k c).record (.completed o) = ofStream xs c c := by
  rw [record, committed_append_stack xs h, ofStream, List.drop_eq_nil_of_le]
  exact List.length_take_le c xs

/-- Items that are consumed are put on the stack. -/
theorem replay_consumed (l : Ledger ι) (xs : List ι) :
    l.replay (xs.map (.consumed (ο := ο))) = { l with stack := l.stack ++ xs } ∧
      l.Honest (xs.map (.consumed (ο := ο))) := by
  induction xs generalizing l with
  | nil => exact ⟨by simp, trivial⟩
  | cons x xs ih =>
    obtain ⟨hreplay, hhonest⟩ := ih (l.record (.consumed (ο := ο) x))
    refine ⟨?_, hhonest⟩
    rw [List.map_cons, replay_cons, hreplay, record, List.append_assoc]
    rfl

/-- Giving back the end of the stack leaves what was below it. -/
theorem replay_rolledBack (committed below dropped : List ι) (hne : dropped ≠ []) :
    (⟨committed, below ++ dropped⟩ : Ledger ι).replay [.rolledBack (ο := ο) dropped] =
        ⟨committed, below⟩ ∧
      (⟨committed, below ++ dropped⟩ : Ledger ι).Honest [.rolledBack (ο := ο) dropped] := by
  refine ⟨?_, ⟨hne, List.suffix_append below dropped⟩, trivial⟩
  rw [replay_cons, replay_nil, record]
  simp

/-- A movement of the cursor takes the ledger from one place to the other. -/
theorem replay_movement {xs : List ι} {k here there : Nat} (hhere : k ≤ here ∧ here ≤ xs.length)
    (hthere : k ≤ there ∧ there ≤ xs.length) :
    (ofStream xs k here).replay (movement (ο := ο) (.of xs k) here there) =
        ofStream xs k there ∧
      (ofStream xs k here).Honest (movement (ο := ο) (.of xs k) here there) := by
  unfold movement
  by_cases hback : there < here
  · -- what is given back is what lies between the two places
    have hne : (xs.drop there).take (here - there) ≠ [] := by
      rw [ne_eq, List.take_eq_nil_iff, List.drop_eq_nil_iff]
      omega
    rw [if_pos hback, Window.slice_of hthere.1, ofStream,
      stack_split xs hthere.1 (Nat.le_of_lt hback) hhere.2]
    exact replay_rolledBack _ _ _ hne
  · -- what is consumed, perhaps once more, is what lies between them
    rw [if_neg hback, Window.slice_of hhere.1]
    have hsplit := stack_split xs hhere.1 (Nat.not_lt.mp hback) hthere.2
    obtain ⟨hreplay, hhonest⟩ := replay_consumed (ο := ο) (ofStream xs k here)
      ((xs.drop here).take (there - here))
    refine ⟨?_, hhonest⟩
    rw [hreplay, ofStream, ofStream, hsplit]

end Ledger

/-! ## The ledger of a history -/

namespace History

variable {m : Machine ι ν ο} {h : History m}

/-- The ledger of an observer shows the stream up to the cursor, and was honest all along. -/
structure Told (h : History m) : Prop where
  /-- The ledger shows the stream. -/
  ledger : Ledger.empty.replay h.events = .ofStream h.fed h.engine.committed h.cursor
  /-- The ledger was honest. -/
  honest : Ledger.empty.Honest h.events

/-- Events that take the ledger to the new cursor keep an observer informed. -/
theorem Told.after_events {h' : History m} (ht : h.Told) (events : List (Event ι ο))
    (hevents : h'.events = h.events ++ events)
    (hreplay : (Ledger.ofStream h.fed h.engine.committed h.cursor).replay events =
      .ofStream h'.fed h'.engine.committed h'.cursor)
    (hhonest : (Ledger.ofStream h.fed h.engine.committed h.cursor).Honest events) : h'.Told where
  ledger := by rw [hevents, Ledger.replay_append, ht.ledger, hreplay]
  honest := by
    rw [hevents, Ledger.honest_append, ht.ledger]
    exact ⟨ht.honest, hhonest⟩

theorem Told.feed (ht : h.Told) (hh : h.Sound) (xs : List ι) : (h.move (.feed xs)).Told := by
  rcases h.engine.feed_cases xs with ⟨hrefused, -⟩ | ⟨⟨ha, hf⟩, heq⟩
  · rw [move_feed_of_refused hrefused]
    exact ht
  · have hcommitted : (h.move (.feed xs)).engine.committed = h.engine.committed := by
      show (h.engine.feed xs).1.committed = _
      rcases heq with heq | ⟨x, heq⟩ <;> rw [heq] <;> rfl
    refine ht.after_events [] (List.append_nil _).symm ?_ trivial
    rw [hcommitted, fed_move_feed ha hf, Ledger.replay_nil]
    exact (Ledger.ofStream_append hh.within.1 hh.within.2 xs).symm

/-- To declare the end is no event. -/
theorem Told.finish (ht : h.Told) : (h.move .finish).Told := by
  refine ht.after_events [] (List.append_nil _).symm ?_ trivial
  show _ = Ledger.ofStream h.fed h.engine.finish.1.committed h.cursor
  unfold Engine.finish
  split <;> rfl

/-- A step tells the observer how the cursor moved, and what was put out. -/
theorem Told.work (ht : h.Told) (hh : h.Sound) : (h.move .work).Told := by
  have hengine : (h.move .work).engine = h.engine.step.engine := rfl
  have hmoves {s : Session m} {c : Nat} {r : Option (Response ι)}
      (resumes : h.engine.resumption = some (s, c, r)) :
      (Ledger.ofStream h.fed h.engine.committed h.cursor).replay
          (movement (ο := ο) h.engine.window s.cursor c) =
          .ofStream h.fed h.engine.committed c ∧
        (Ledger.ofStream h.fed h.engine.committed h.cursor).Honest
          (movement (ο := ο) h.engine.window s.cursor c) := by
    obtain ⟨ha, hs, -⟩ := Engine.resumption_eq_some resumes
    rw [(hh.engine.opens hs).cursor, ← hh.cursor ha, hh.engine.window]
    exact Ledger.replay_movement hh.within (hh.engine.resumption_within resumes)
  have hwork : (h.move .work).events = h.events ++ h.engine.step.events := rfl
  cases hh.engine.stepped with
  | idle stays eq | refused stays _ _ eq =>
    refine ht.after_events _ hwork ?_ ?_ <;> rw [eq]
    · rw [hengine, eq, cursor_work_of_stays stays]
      rfl
    · trivial
  | suspended resumes _ eq | failed resumes _ eq | unproductive resumes _ _ eq =>
    refine ht.after_events _ hwork ?_ ?_ <;> rw [eq]
    · rw [hengine, eq, cursor_work resumes]
      exact (hmoves resumes).1
    · exact (hmoves resumes).2
  | @completed s c r o resumes _ _ _ eq =>
    have hcommitted : h.engine.committed ≤ c := (hh.engine.resumption_within resumes).1
    refine ht.after_events _ hwork ?_ ?_ <;> rw [eq]
    · rw [hengine, eq, cursor_work resumes, Ledger.replay_append, (hmoves resumes).1]
      exact Ledger.record_completed h.fed hcommitted o
    · rw [Ledger.honest_append]
      exact ⟨(hmoves resumes).2, trivial⟩

/-- The ledger of every history is told by its events. -/
theorem Told.after (ht : h.Told) (hh : h.Sound) (moves : List (Move ι)) :
    (h.after moves).Told := by
  induction moves generalizing h with
  | nil => exact ht
  | cons x moves ih =>
    refine ih ?_ (hh.move x)
    cases x with
    | feed xs => exact ht.feed hh xs
    | finish => exact ht.finish
    | configure limit => exact ⟨ht.ledger, ht.honest⟩
    | work => exact ht.work hh

/-- At first the ledger is empty. -/
theorem told_fresh (m : Machine ι ν ο) (limit : Option Nat) : (fresh m limit).Told :=
  ⟨rfl, trivial⟩

/-- However an engine is called, and at any moment: items that an observer is told to give back are
the last that it holds, the items that its ledger lists as committed are as many as the engine has
committed, and all that it lists is the stream up to the cursor. -/
theorem ledger_shows_stream (m : Machine ι ν ο) (limit : Option Nat) (moves : List (Move ι)) :
    let h := (fresh m limit).after moves
    let l := Ledger.empty.replay h.events
    (∀ before dropped after, h.events = before ++ .rolledBack dropped :: after →
      dropped ≠ [] ∧ dropped <:+ (Ledger.empty.replay before).stack) ∧
    l.committed.length = h.engine.committed ∧
    l.committed ++ l.stack = h.fed.take h.cursor ∧ h.cursor ≤ h.fed.length ∧
    (h.engine.aborted = false → h.cursor = h.engine.cursor) ∧
    ∀ f n, .error (.failure f n) ∈ h.delivered → h.cursor = n := by
  intro h l
  have hh : h.Sound := (sound_fresh m limit).after moves
  have ht : h.Told := (told_fresh m limit).after (sound_fresh m limit) moves
  have hl : l = .ofStream h.fed h.engine.committed h.cursor := ht.ledger
  refine ⟨fun before dropped after heq => ht.honest.suffix heq, ?_, ?_, hh.within.2, hh.cursor, ?_⟩
  · rw [hl, Ledger.ofStream, List.length_take, Nat.min_eq_left hh.engine.committed_le]
  · rw [hl, Ledger.committed_append_stack h.fed hh.within.1]
  · intro f n hf
    exact ((hh.error _ hf).2 f n rfl).symm

end History

end ResumableParsing
