/-
# Positions in a text

A position counts characters, lines and columns.  A line tracker follows the cursor of an engine by
its events and always shows the position of the cursor: it remembers the positions that the cursor
may return to, the last of them first.
-/
import ResumableParsing.Engine.Schedule

namespace ResumableParsing

variable {ο : Type}

/-! ## Positions -/

/-- A place in a text. -/
structure Position where
  /-- The number of characters before it. -/
  offset : Nat
  /-- The number of its line, counted from one. -/
  line : Nat
  /-- The number of its column, counted from one in characters. -/
  column : Nat
  deriving DecidableEq

namespace Position

/-- The beginning of a text. -/
def start : Position := ⟨0, 1, 1⟩

/-- The position behind a character; a line feed ends its line. -/
def advance (p : Position) (c : Char) : Position :=
  if c = '\n' then ⟨p.offset + 1, p.line + 1, 1⟩ else ⟨p.offset + 1, p.line, p.column + 1⟩

/-- The position behind a text. -/
def advanceAll (p : Position) (cs : List Char) : Position := cs.foldl advance p

/-- A position and those behind each character of a text. -/
def along (p : Position) : List Char → List Position
  | [] => [p]
  | c :: cs => p :: (p.advance c).along cs

/-- A position as line and column. -/
def text (p : Position) : String := toString p.line ++ ":" ++ toString p.column

/-- Each character counts one. -/
@[simp] theorem offset_advance (p : Position) (c : Char) : (p.advance c).offset = p.offset + 1 := by
  unfold advance
  split <;> rfl

@[simp] theorem advanceAll_nil (p : Position) : p.advanceAll [] = p := rfl

/-- A text is passed character by character. -/
@[simp] theorem advanceAll_cons (p : Position) (c : Char) (cs : List Char) :
    p.advanceAll (c :: cs) = (p.advance c).advanceAll cs := rfl

/-- Two texts are passed one after the other. -/
theorem advanceAll_append (p : Position) (cs ds : List Char) :
    p.advanceAll (cs ++ ds) = (p.advanceAll cs).advanceAll ds := List.foldl_append

/-- The offset counts the characters. -/
@[simp] theorem offset_advanceAll (p : Position) (cs : List Char) :
    (p.advanceAll cs).offset = p.offset + cs.length := by
  induction cs generalizing p with
  | nil => rfl
  | cons c cs ih =>
    rw [advanceAll_cons, ih, offset_advance, List.length_cons]
    omega

end Position

/-! ## Line trackers -/

/-- The position of a cursor, and the positions that it came through since the last output, the last
of them first. -/
structure LineTracker where
  /-- The position of the cursor. -/
  position : Position
  /-- The positions that it may return to. -/
  history : List Position

namespace LineTracker

/-- A tracker at the beginning of a text. -/
def fresh : LineTracker := ⟨.start, []⟩

/-- How many positions the cursor may return to. -/
def pending (t : LineTracker) : Nat := t.history.length

/-- Follow the cursor behind a character. -/
def consume (t : LineTracker) (c : Char) : LineTracker :=
  ⟨t.position.advance c, t.position :: t.history⟩

/-- Follow the cursor back, over a number of characters but not beyond the history. -/
def rollBack : Nat → LineTracker → LineTracker
  | n + 1, ⟨_, p :: history⟩ => rollBack n ⟨p, history⟩
  | _, t => t

/-- Forget the positions that the cursor will not return to. -/
def commit (t : LineTracker) : LineTracker := { t with history := [] }

/-- Follow the cursor through one event. -/
def observe (t : LineTracker) : Event Char ο → LineTracker
  | .consumed c => t.consume c
  | .rolledBack dropped => t.rollBack dropped.length
  | .completed _ => t.commit

/-- Follow the cursor through events in order. -/
def observeAll (t : LineTracker) (events : List (Event Char ο)) : LineTracker :=
  events.foldl observe t

/-- The tracker after each call of a schedule, of which it observed the events. -/
def followCalls {ν : Type} {m : Machine Char ν ο} :
    LineTracker → List (CallReport m) → List LineTracker
  | _, [] => []
  | t, report :: rest =>
    let t := match report.call with
      | .renewObserver => fresh
      | _ => t.observeAll report.events
    t :: followCalls t rest

@[simp] theorem observeAll_nil (t : LineTracker) :
    t.observeAll ([] : List (Event Char ο)) = t := rfl

/-- Events are observed one by one. -/
@[simp] theorem observeAll_cons (t : LineTracker) (e : Event Char ο) (es : List (Event Char ο)) :
    t.observeAll (e :: es) = (t.observe e).observeAll es := rfl

/-- Events one after the other are observed one after the other. -/
theorem observeAll_append (t : LineTracker) (es fs : List (Event Char ο)) :
    t.observeAll (es ++ fs) = (t.observeAll es).observeAll fs := List.foldl_append

end LineTracker

end ResumableParsing
