/-
# Schedules

A schedule is a list of calls to one engine.  A call lets items arrive, declares their end, or only
asks for what can be delivered; what a call makes available is taken completely, or only a given
number of times, so that work may be left for later calls.
-/
import ResumableParsing.Engine.Basic

namespace ResumableParsing

variable {ι ν ο : Type}

/-! ## Calls and their reports -/

/-- What an engine can be told to do. -/
inductive Call (ι : Type) where
  /-- Let items arrive. -/
  | feed (xs : List ι)
  /-- Declare the end of the input. -/
  | finish
  /-- Let items arrive, and unless more will follow declare the end of the input. -/
  | drive (xs : List ι) (streaming : Bool)
  /-- Only ask for what can be delivered. -/
  | outputs
  /-- Replace the limit on retained items. -/
  | configure (limit : Option Nat)
  /-- Replace the observer by a new one; the engine is left as it is. -/
  | renewObserver

/-- A call, and how many times a delivery is asked for; without a number, until there is none. -/
structure ScheduledCall (ι : Type) where
  /-- The call. -/
  call : Call ι
  /-- How often a delivery is asked for. -/
  take : Option Nat

/-- What a call comes to. -/
inductive Outcome (ι ο : Type) where
  /-- The call was refused. -/
  | refused (e : ParseError ι)
  /-- What was answered each time that a delivery was asked for; `none` means that there was
  none. -/
  | taken (answers : List (Option (Engine.Delivery ι ο)))
  /-- The limit was replaced. -/
  | configured (limit : Option Nat)
  /-- The observer was replaced. -/
  | observerRenewed
  /-- The budget of resumptions was used up. -/
  | exhausted

/-- A call of a schedule with the engine after it, what happened meanwhile and what it came to. -/
structure CallReport (m : Machine ι ν ο) where
  /-- The call. -/
  call : Call ι
  /-- The engine after the call. -/
  engine : Engine m
  /-- The movements of the cursor and the outputs. -/
  events : List (Event ι ο)
  /-- What the computations noted. -/
  notes : List ν
  /-- What the call came to. -/
  outcome : Outcome ι ο

namespace Engine

variable {m : Machine ι ν ο}

/-! ## Taking deliveries -/

/-- Ask for a delivery a number of times. -/
def takeDeliveries (budget : Nat) : Nat → Engine m →
    Engine m × List (Event ι ο) × List ν × Option (List (Option (Delivery ι ο)))
  | 0, e => (e, [], [], some [])
  | n + 1, e =>
    let a := e.next budget
    let go (answer : Option (Delivery ι ο)) :=
      let (e, events, notes, answers) := takeDeliveries budget n a.engine
      (e, a.events ++ events, a.notes ++ notes, answers.map (answer :: ·))
    match a.verdict with
    | .running => (a.engine, a.events, a.notes, none)
    | .idle => go none
    | .output o => go (some (.ok o))
    | .error x => go (some (.error x))

/-- Take what a call has made available. -/
def takeAfter (call : Call ι) (budget : Nat) (take : Option Nat) (e : Engine m) : CallReport m :=
  match take with
  | none =>
    let d := e.drain budget
    ⟨call, d.engine, d.events, d.notes,
      if d.settled then .taken (d.delivered.map some) else .exhausted⟩
  | some n =>
    let (e, events, notes, answers) := takeDeliveries budget n e
    ⟨call, e, events, notes, match answers with
      | some answers => .taken answers
      | none => .exhausted⟩

/-! ## Running a schedule -/

/-- Make one call of a schedule. -/
def makeCall (budget : Nat) (e : Engine m) (c : ScheduledCall ι) : CallReport m :=
  let afterwards : Engine m × Option (ParseError ι) → CallReport m
    | (e, some x) => ⟨c.call, e, [], [], .refused x⟩
    | (e, none) => e.takeAfter c.call budget c.take
  match c.call with
  | .feed xs => afterwards (e.feed xs)
  | .finish => afterwards e.finish
  | .drive xs streaming => afterwards (e.drive xs streaming)
  | .outputs => afterwards (e, none)
  | .configure limit => ⟨c.call, { e with limit := limit }, [], [], .configured limit⟩
  | .renewObserver => ⟨c.call, e, [], [], .observerRenewed⟩

/-- Make the calls of a schedule in order. -/
def runSchedule (budget : Nat) : Engine m → List (ScheduledCall ι) → List (CallReport m)
  | _, [] => []
  | e, c :: cs =>
    let report := e.makeCall budget c
    report :: runSchedule budget report.engine cs

end Engine

end ResumableParsing
