/-
# Sessions

A session is one run of a computation over the window.  It keeps the computation's state, the
request that it waits on, and a cursor; the request is answered from the window, if the window
reaches far enough.
-/
import ResumableParsing.Error
import ResumableParsing.Event
import ResumableParsing.Machine.Basic
import ResumableParsing.Window

namespace ResumableParsing

variable {ι ν ο : Type}

/-- One run of a computation of the machine `m`. -/
structure Session (m : Machine ι ν ο) where
  /-- The number of the session, counting from zero. -/
  id : Nat
  /-- The offset at which the session began. -/
  start : Nat
  /-- The offset of the item that the next request is about. -/
  cursor : Nat
  /-- The request that the computation waits on; a fresh computation waits on none. -/
  pending : Option Request
  /-- The state of the computation. -/
  state : m.State

/-- What the window has to say to a session. -/
inductive Answer (ι ο : Type) where
  /-- The computation can be resumed with the response, from the new cursor; the events tell how the
  cursor got there. -/
  | ready (cursor : Nat) (response : Option (Response ι)) (events : List (Event ι ο))
  /-- The item asked for has not arrived yet. -/
  | starved
  /-- The token asked for is not one to return to. -/
  | refused (e : UsageError)

/-- How the cursor gets from one offset to another: back in one movement, forward item by item. -/
def movement (w : Window ι) (here there : Nat) : List (Event ι ο) :=
  if there < here then [.rolledBack (w.slice there here)]
  else (w.slice here there).map .consumed

namespace Session

variable {m : Machine ι ν ο}

/-- Return to a token, if it belongs to the session and to a retained place. -/
def restore (s : Session m) (w : Window ι) (t : Token) : Answer ι ο :=
  if t.session ≠ s.id then .refused (.foreignSnapshot t.session s.id)
  else if t.offset < s.start ∨ w.stop < t.offset then
    .refused (.staleSnapshot t.offset s.start w.stop)
  else .ready t.offset (some (.token t)) (movement w s.cursor t.offset)

/-- Answer the pending request; `finished` says that no more items will arrive. -/
def answer (s : Session m) (w : Window ι) (finished : Bool) : Answer ι ο :=
  match s.pending with
  | none => .ready s.cursor none []
  | some .snapshot => .ready s.cursor (some (.token ⟨s.id, s.cursor⟩)) []
  | some (.rollback t) => s.restore w t
  | some .peek =>
    match w.get? s.cursor with
    | some x => .ready s.cursor (some (.item x)) []
    | none => if finished then .ready s.cursor (some .endOfInput) [] else .starved
  | some .consume =>
    match w.get? s.cursor with
    | some x => .ready (s.cursor + 1) (some (.item x)) [.consumed x]
    | none => if finished then .ready s.cursor (some .endOfInput) [] else .starved

end Session

end ResumableParsing
