/-
# Ordered choice

The alternatives are tried in order, each from where the choice began, until one completes or fails
fatally.  After each recoverable failure the choice measures how far the alternative got.  When all
have failed, the cursor goes to the furthest place that was reached, and only the failures that
arose there are reported.
-/
import ResumableParsing.Machine.Basic

namespace ResumableParsing

variable {ι ν α : Type}

/-! ## The failures that got furthest -/

/-- The failures of the alternatives that got furthest, and a token for the place they got to. -/
structure Furthest (ι : Type) where
  /-- The place, as the first of the failures found it. -/
  token : Token
  /-- The failures, in the order of their alternatives. -/
  failures : List (Failure ι)

/-- Count in one more failure: one that got further drives out the others, one that got less far is
forgotten. -/
def Furthest.record (best : Option (Furthest ι)) (reached : Token) (e : Failure ι) : Furthest ι :=
  match best with
  | none => ⟨reached, [e]⟩
  | some g =>
    if reached.offset = g.token.offset then { g with failures := g.failures ++ [e] }
    else if reached.offset < g.token.offset then g
    else ⟨reached, [e]⟩

/-- A failure that got furthest alone speaks for the choice; several are gathered. -/
def Furthest.failure (g : Furthest ι) : Failure ι :=
  match g.failures with
  | [e] => e
  | es => .aggregate es

/-! ## The machine -/

namespace Machine

/-- How far a choice has come; `run i` are the states of the alternative `i`. -/
inductive Choosing (ι : Type) {n : Nat} (run : Fin n → Type) where
  /-- Nothing was asked yet. -/
  | start
  /-- Waiting for the token of the place where the choice begins. -/
  | opening
  /-- An alternative runs. -/
  | running (initial : Token) (best : Option (Furthest ι)) (i : Fin n) (s : run i)
  /-- An alternative failed; waiting for the token of the place it got to. -/
  | measuring (initial : Token) (best : Option (Furthest ι)) (i : Fin n) (e : Failure ι)
  /-- Waiting to be back at the beginning, where the alternative `i` is next. -/
  | returning (initial : Token) (best : Furthest ι) (i : Fin n)
  /-- All have failed; waiting to be at the furthest place. -/
  | settling (best : Furthest ι)
  /-- The choice has ended. -/
  | ended

/-- Fail and be done. -/
def Choosing.stop {n : Nat} {run : Fin n → Type} (e : Failure ι) :
    Turn (Choosing ι run) ι ν α := ⟨.ended, .fail e, []⟩

/-- A turn of a running alternative. -/
def Choosing.ofTurn {n : Nat} {run : Fin n → Type} (initial : Token)
    (best : Option (Furthest ι)) (i : Fin n) (t : Turn (run i) ι ν α) :
    Turn (Choosing ι run) ι ν α :=
  match t.resumed with
  | .suspend q => ⟨.running initial best i t.state, .suspend q, t.notes⟩
  | .complete a => ⟨.ended, .complete a, t.notes⟩
  | .fail e =>
    if e.isFatal then ⟨.ended, .fail e, t.notes⟩
    else ⟨.measuring initial best i e, .suspend .snapshot, t.notes⟩

/-- The states of a choice between machines. -/
abbrev ChoosingFrom (ps : List (Machine ι ν α)) : Type :=
  Choosing ι fun i : Fin ps.length => ps[i].State

/-- Resume a choice between machines. -/
def chooseFrom (ps : List (Machine ι ν α)) :
    ChoosingFrom ps → Option (Response ι) → Turn (ChoosingFrom ps) ι ν α
  | .start, _ =>
    if ps.isEmpty then Choosing.stop (.aggregate []) else ⟨.opening, .suspend .snapshot, []⟩
  | .opening, r =>
    match expectToken r with
    | .error e => Choosing.stop e
    | .ok initial =>
      if h : 0 < ps.length then Choosing.ofTurn initial none ⟨0, h⟩ ps[0].start
      else Choosing.stop (.aggregate [])
  | .running initial best i s, r => Choosing.ofTurn initial best i (ps[i].resume s r)
  | .measuring initial best i e, r =>
    match expectToken r with
    | .error e => Choosing.stop e
    | .ok reached =>
      let best := Furthest.record best reached e
      if h : i + 1 < ps.length then
        ⟨.returning initial best ⟨i + 1, h⟩, .suspend (.rollback initial), []⟩
      else ⟨.settling best, .suspend (.rollback best.token), []⟩
  | .returning initial best i, r =>
    match expectToken r with
    | .error e => Choosing.stop e
    | .ok _ => Choosing.ofTurn initial (some best) i ps[i].start
  | .settling best, r =>
    match expectToken r with
    | .error e => Choosing.stop e
    | .ok _ => Choosing.stop best.failure
  | .ended, _ => Choosing.stop (.violation "resumed after completion")

/-- Try machines in order from the same place; the first that completes or fails fatally decides. -/
def choice (ps : List (Machine ι ν α)) : Machine ι ν α where
  State := ChoosingFrom ps
  init := .start
  resume := chooseFrom ps

end Machine

end ResumableParsing
