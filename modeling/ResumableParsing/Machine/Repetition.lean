/-
# Repetition

A machine is run a number of times that must succeed, and then as often as it does succeed, as far
as there is room.  Before each optional run the repetition takes a token, and returns to it when the
run fails recoverably.  A repetition without a bound ends when an optional run took nothing, since
the next one would do the same.
-/
import ResumableParsing.Machine.Basic

namespace ResumableParsing

variable {ι ν α : Type}

namespace Machine

/-- How far a repetition has come; `done` are the outputs so far, the last of them first. -/
inductive Repeating (α σ : Type) where
  /-- Nothing was resumed yet. -/
  | start
  /-- A run that must succeed is under way, and `left` more will follow it. -/
  | mandatory (left : Nat) (done : List α) (s : σ)
  /-- Waiting for the token before an optional run; `last` is where the one before it began. -/
  | checking (room : Option Nat) (last : Option Nat) (done : List α)
  /-- An optional run is under way that began at `checkpoint`. -/
  | optional (room : Option Nat) (checkpoint : Token) (done : List α) (s : σ)
  /-- Waiting to be back where a failed run began. -/
  | returning (done : List α)
  /-- The repetition has ended. -/
  | ended

namespace Repeating

variable {σ : Type}

/-- Complete with the outputs. -/
def finish (done : List α) : Turn (Repeating α σ) ι ν (List α) :=
  ⟨.ended, .complete done.reverse, []⟩

/-- Fail and be done. -/
def stop (e : Failure ι) : Turn (Repeating α σ) ι ν (List α) := ⟨.ended, .fail e, []⟩

/-- Ask for a checkpoint if there is room for a run, and complete otherwise. -/
def proceed (room last : Option Nat) (done : List α) : Turn (Repeating α σ) ι ν (List α) :=
  if room = some 0 then finish done else ⟨.checking room last done, .suspend .snapshot, []⟩

/-- A turn of a run that must succeed; `onward` is what follows it. -/
def ofMandatory (left : Nat) (done : List α) (onward : List α → Turn (Repeating α σ) ι ν (List α))
    (t : Turn σ ι ν α) : Turn (Repeating α σ) ι ν (List α) :=
  match t.resumed with
  | .suspend q => ⟨.mandatory left done t.state, .suspend q, t.notes⟩
  | .fail e => ⟨.ended, .fail e, t.notes⟩
  | .complete a => (onward (a :: done)).after t.notes

/-- Start `left` runs that must succeed, one after the other, and then the optional ones. -/
def demand (p : Machine ι ν α) (room : Option Nat) :
    Nat → List α → Turn (Repeating α p.State) ι ν (List α)
  | 0, done => proceed room none done
  | left + 1, done => ofMandatory left done (demand p room left) p.start

/-- A turn of an optional run. -/
def ofOptional (room : Option Nat) (checkpoint : Token) (done : List α) (t : Turn σ ι ν α) :
    Turn (Repeating α σ) ι ν (List α) :=
  match t.resumed with
  | .suspend q => ⟨.optional room checkpoint done t.state, .suspend q, t.notes⟩
  | .complete a =>
    (proceed (room.map (· - 1)) (some checkpoint.offset) (a :: done)).after t.notes
  | .fail e =>
    if e.isFatal then ⟨.ended, .fail e, t.notes⟩
    else ⟨.returning done, .suspend (.rollback checkpoint), t.notes⟩

end Repeating

open Repeating in
/-- Run `p` at least `min` times and at most `max` times, where no `max` means no bound and a `max`
below `min` means `min`. -/
def repetition (p : Machine ι ν α) (min : Nat) (max : Option Nat) : Machine ι ν (List α) where
  State := Repeating α p.State
  init := .start
  resume
    | .start, r =>
      let room := max.map (· - min)
      match min with
      | 0 => proceed room none []
      | left + 1 => ofMandatory left [] (demand p room left) (p.resume p.init r)
    | .mandatory left done s, r =>
      ofMandatory left done (demand p (max.map (· - min)) left) (p.resume s r)
    | .checking room last done, r =>
      match expectToken r with
      | .error e => stop e
      | .ok checkpoint =>
        if room = none ∧ last = some checkpoint.offset then finish done
        else ofOptional room checkpoint done p.start
    | .optional room checkpoint done s, r => ofOptional room checkpoint done (p.resume s r)
    | .returning done, r =>
      match expectToken r with
      | .error e => stop e
      | .ok _ => finish done
    | .ended, _ => stop (.violation "resumed after completion")

end Machine

end ResumableParsing
