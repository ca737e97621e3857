/-
# The engine

The engine runs the computations of a machine over a stream that arrives in pieces.  It starts one
session after the other, answers what the computations ask from the window of retained items, and
waits when they ask for an item that has not arrived.  A session that completes commits the items
before its cursor and its output is delivered; an error ends the engine.

Only the first session may start before there is input, so that cutting the stream differently does
not add outputs.  A session must ask for something, and must not end where it began as long as there
is input.
-/
import ResumableParsing.Engine.Session

namespace ResumableParsing

variable {ι ν ο : Type}

/-- An engine for the machine `m`. -/
structure Engine (m : Machine ι ν ο) where
  /-- How many items may be retained after a feed. -/
  limit : Option Nat
  /-- The items that are not committed. -/
  window : Window ι
  /-- The session under way. -/
  session : Option (Session m)
  /-- The number of the next session. -/
  nextSession : Nat
  /-- Whether the end of the input was declared. -/
  finished : Bool
  /-- Whether an error has ended the engine. -/
  aborted : Bool

/-- What a piece of an engine's work comes to. -/
inductive Verdict (ι ο : Type) where
  /-- There is more to do. -/
  | running
  /-- Nothing can be done until input arrives. -/
  | idle
  /-- A session completed. -/
  | output (o : ο)
  /-- An error ended the engine. -/
  | error (e : ParseError ι)

/-- A piece of an engine's work: the engine after it, the events and notes that it gave rise to, and
what it came to. -/
structure Advance (m : Machine ι ν ο) where
  /-- The engine afterwards. -/
  engine : Engine m
  /-- The movements of the cursor and the outputs. -/
  events : List (Event ι ο)
  /-- What the computations noted. -/
  notes : List ν
  /-- What the work came to. -/
  verdict : Verdict ι ο

namespace Engine

variable {m : Machine ι ν ο}

/-- An engine to which nothing was fed. -/
def fresh (m : Machine ι ν ο) (limit : Option Nat) : Engine m :=
  ⟨limit, .empty, none, 0, false, false⟩

/-- The number of items retained for the session under way or the next one. -/
def buffered (e : Engine m) : Nat := e.window.items.length

/-- The number of items that completed sessions have taken. -/
def committed (e : Engine m) : Nat := e.window.start

/-- End the engine. -/
def abort (e : Engine m) : Engine m := { e with aborted := true, session := none }

/-! ## Running sessions -/

/-- The session under way, or a new one if one may start. -/
def openSession (e : Engine m) : Option (Session m) :=
  match e.session with
  | some s => some s
  | none =>
    if 0 < e.nextSession ∧ e.window.items = [] then none
    else some ⟨e.nextSession, e.window.start, e.window.start, none, m.init⟩

/-- What follows when a session's computation completes at a cursor. -/
def complete (e : Engine m) (s : Session m) (cursor : Nat) (o : ο) : Engine m × Verdict ι ο :=
  if s.pending = none then (e.abort, .error (.usage .noConsumption))
  else if cursor = s.start ∧ cursor < e.window.stop then
    (e.abort, .error (.usage (.noProgress cursor)))
  else ({ e with session := none, window := e.window.discardBefore cursor }, .output o)

/-- Resume the session's computation with the response, from the cursor. -/
def resume (e : Engine m) (s : Session m) (cursor : Nat) (r : Option (Response ι))
    (events : List (Event ι ο)) : Advance m :=
  let t := m.resume s.state r
  match t.resumed with
  | .suspend q =>
    ⟨{ e with session := some { s with cursor := cursor, pending := some q, state := t.state } },
      events, t.notes, .running⟩
  | .fail f => ⟨e.abort, events, t.notes, .error (.failure f cursor)⟩
  | .complete o =>
    match e.complete s cursor o with
    | (e, .output o) => ⟨e, events ++ [.completed o], t.notes, .output o⟩
    | (e, verdict) => ⟨e, events, t.notes, verdict⟩

/-- Do as much work as one resumption: start a session if need be, answer its request and resume its
computation. -/
def step (e : Engine m) : Advance m :=
  if e.aborted then ⟨e, [], [], .idle⟩
  else
    match e.openSession with
    | none => ⟨e, [], [], .idle⟩
    | some s =>
      let e := { e with nextSession := s.id + 1 }
      match s.answer e.window e.finished with
      | .starved => ⟨e, [], [], .idle⟩
      | .refused u => ⟨e.abort, [], [], .error (.usage u)⟩
      | .ready cursor r events => e.resume s cursor r events

/-- Work until a session completes, an error ends the engine, or nothing can be done; if the budget
of resumptions is used up before, there is more to do. -/
def next : Nat → Engine m → Advance m
  | 0, e => ⟨e, [], [], .running⟩
  | budget + 1, e =>
    let a := e.step
    match a.verdict with
    | .running =>
      let b := next budget a.engine
      { b with events := a.events ++ b.events, notes := a.notes ++ b.notes }
    | _ => a

/-! ## Running to the end -/

/-- What is delivered: an output or an error. -/
abbrev Delivery (ι ο : Type) : Type := Except (ParseError ι) ο

end Engine

/-- All the work that an engine can do: what it delivers, and whether it came to the point where
nothing can be done. -/
structure Drain (m : Machine ι ν ο) where
  /-- The engine afterwards. -/
  engine : Engine m
  /-- The movements of the cursor and the outputs. -/
  events : List (Event ι ο)
  /-- What the computations noted. -/
  notes : List ν
  /-- What was delivered, in order. -/
  delivered : List (Engine.Delivery ι ο)
  /-- Whether nothing can be done any more. -/
  settled : Bool

namespace Engine

variable {m : Machine ι ν ο}

/-- Put one piece of work before the rest. -/
def Advance.before (a : Advance m) (delivered : List (Delivery ι ο)) (d : Drain m) : Drain m :=
  ⟨d.engine, a.events ++ d.events, a.notes ++ d.notes, delivered ++ d.delivered, d.settled⟩

/-- Work until nothing can be done, within a budget of resumptions. -/
def drain : Nat → Engine m → Drain m
  | 0, e => ⟨e, [], [], [], false⟩
  | budget + 1, e =>
    let a := e.step
    match a.verdict with
    | .idle => ⟨a.engine, a.events, a.notes, [], true⟩
    | .running => Advance.before a [] (drain budget a.engine)
    | .output o => Advance.before a [.ok o] (drain budget a.engine)
    | .error x => Advance.before a [.error x] (drain budget a.engine)

/-! ## Feeding -/

/-- Let items arrive.  An engine that has ended or whose input has ended refuses them; retaining
more than the limit ends the engine. -/
def feed (e : Engine m) (xs : List ι) : Engine m × Option (ParseError ι) :=
  if e.aborted then (e, some (.usage .aborted))
  else if e.finished then (e, some (.usage .inputFinished))
  else
    let e := { e with window := e.window.append xs }
    match exceededLimit e.limit e.buffered with
    | some limit => (e.abort, some (.bufferOverflow e.buffered limit))
    | none => (e, none)

/-- Declare the end of the input. -/
def finish (e : Engine m) : Engine m × Option (ParseError ι) :=
  if e.aborted then (e, some (.usage .aborted)) else ({ e with finished := true }, none)

/-- Let items arrive, and unless more will follow declare the end of the input. -/
def drive (e : Engine m) (xs : List ι) (streaming : Bool) : Engine m × Option (ParseError ι) :=
  match e.feed xs with
  | (e, some x) => (e, some x)
  | (e, none) => if streaming then (e, none) else e.finish

end Engine

/-! ## Parsing a whole input -/

/-- The outputs up to the first error, or that error. -/
def gather {ε α : Type} : List (Except ε α) → Except ε (List α)
  | [] => .ok []
  | .error e :: _ => .error e
  | .ok a :: rest => (gather rest).map (a :: ·)

/-- Parse a whole input: what all of its sessions put out or the error that ended them, and what was
noted; nothing if the budget of resumptions was not enough. -/
def parseAll (m : Machine ι ν ο) (budget : Nat) (xs : List ι) :
    Option (Except (ParseError ι) (List ο) × List ν) :=
  match (Engine.fresh m none).drive xs false with
  | (_, some x) => some (.error x, [])
  | (e, none) =>
    let d := e.drain budget
    if d.settled then some (gather d.delivered, d.notes) else none

end ResumableParsing
