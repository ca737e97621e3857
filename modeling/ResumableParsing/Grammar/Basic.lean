/-
# Grammars

A grammar is the description of a parser: a tree of the constructions that machines know, whose
continuations are functions of what was parsed, and whose leaves may call rules by name.  A rule
book says what each rule stands for, and rules may call one another and themselves.

A grammar is read as a machine over machines for its rules.  A rule is unfolded only when it is
called, and at most to a given depth; a call that would go deeper waits forever.
-/
import ResumableParsing.Machine.Choice
import ResumableParsing.Machine.Deferred
import ResumableParsing.Machine.Handling
import ResumableParsing.Machine.Inquiry
import ResumableParsing.Machine.Repetition

namespace ResumableParsing

/-- Grammars that call rules named by `ρ`, read items of type `ι`, note things of type `ν` and put
out values of the last type. -/
inductive Grammar (ρ : Type → Type) (ι ν : Type) : Type → Type 1 where
  /-- Take the item at the cursor if it is accepted. -/
  | satisfy (expected : String) (accepts : ι → Bool) : Grammar ρ ι ν ι
  /-- Nothing is left. -/
  | endOfInput : Grammar ρ ι ν Unit
  /-- Ask the input one thing. -/
  | ask {α : Type} (q : Inquiry ι α) : Grammar ρ ι ν α
  /-- Put out a value and ask nothing. -/
  | pure {α : Type} (a : α) : Grammar ρ ι ν α
  /-- Change the output. -/
  | map {α β : Type} (p : Grammar ρ ι ν α) (f : α → β) : Grammar ρ ι ν β
  /-- One after the other, keeping both outputs. -/
  | pair {α β : Type} (p : Grammar ρ ι ν α) (q : Grammar ρ ι ν β) : Grammar ρ ι ν (α × β)
  /-- All in order. -/
  | all {α : Type} {n : Nat} (ps : Fin n → Grammar ρ ι ν α) : Grammar ρ ι ν (List α)
  /-- The first that does not fail. -/
  | choice {α : Type} {n : Nat} (ps : Fin n → Grammar ρ ι ν α) : Grammar ρ ι ν α
  /-- At least `min` and at most `max` times. -/
  | repetition {α : Type} (p : Grammar ρ ι ν α) (min : Nat) (max : Option Nat) :
      Grammar ρ ι ν (List α)
  /-- Go on with what the output calls for. -/
  | bind {α β : Type} (p : Grammar ρ ι ν α) (f : α → Grammar ρ ι ν β) : Grammar ρ ι ν β
  /-- Go on with what a recoverable failure calls for. -/
  | rescue {α : Type} (p : Grammar ρ ι ν α) (handler : Failure ι → Grammar ρ ι ν α) :
      Grammar ρ ι ν α
  /-- Go on with `q` after a recoverable failure. -/
  | recoverWith {α : Type} (p q : Grammar ρ ι ν α) : Grammar ρ ι ν α
  /-- No failure is recovered from. -/
  | fatal {α : Type} (p : Grammar ρ ι ν α) : Grammar ρ ι ν α
  /-- Failures are told what was being parsed. -/
  | label {α : Type} (p : Grammar ρ ι ν α) (construct : String) : Grammar ρ ι ν α
  /-- What a rule stands for. -/
  | call {α : Type} (rule : ρ α) : Grammar ρ ι ν α
  /-- Every resumption is noted. -/
  | tap {α : Type} (p : Grammar ρ ι ν α) (mark : Option (Response ι) → Resumed ι α → ν) :
      Grammar ρ ι ν α
  /-- A machine made by hand. -/
  | custom {α : Type} (m : Machine ι ν α) : Grammar ρ ι ν α

/-- What each rule stands for. -/
abbrev RuleBook (ρ : Type → Type) (ι ν : Type) : Type 1 := (α : Type) → ρ α → Grammar ρ ι ν α

variable {ρ : Type → Type} {ι ν α : Type}

namespace Grammar

/-- The machine of a grammar, over machines for the rules that it calls. -/
def machine (called : (α : Type) → ρ α → Machine ι ν α) : {α : Type} → Grammar ρ ι ν α →
    Machine ι ν α
  | _, satisfy expected accepts => .satisfy expected accepts
  | _, endOfInput => .endOfInput
  | _, ask q => .ask q
  | _, pure a => .pure a
  | _, map p f => (p.machine called).map f
  | _, pair p q => (p.machine called).pair (q.machine called)
  | _, all ps => .all (List.ofFn fun i => (ps i).machine called)
  | _, choice ps => .choice (List.ofFn fun i => (ps i).machine called)
  | _, repetition p min max => (p.machine called).repetition min max
  | _, bind p f => (p.machine called).bind fun a => (f a).machine called
  | _, rescue p handler => (p.machine called).rescue fun e => (handler e).machine called
  | _, recoverWith p q => (p.machine called).recoverWith (q.machine called)
  | _, fatal p => (p.machine called).fatal
  | _, label p construct => (p.machine called).label construct
  | _, call rule => .deferred fun _ => called _ rule
  | _, tap p mark => (p.machine called).tap mark
  | _, custom m => m

/-- The machine of a rule whose calls are unfolded to the given depth. -/
def ruleMachine (rules : RuleBook ρ ι ν) : Nat → (α : Type) → ρ α → Machine ι ν α
  | 0, _, _ => .stalled
  | depth + 1, α, rule => (rules α rule).machine (ruleMachine rules depth)

/-- The parser that a grammar describes under a rule book, with calls unfolded to the given
depth. -/
def parser (rules : RuleBook ρ ι ν) (depth : Nat) (g : Grammar ρ ι ν α) : Machine ι ν α :=
  g.machine (ruleMachine rules depth)

end Grammar

end ResumableParsing
