/-
# One computation after another

A pair runs two machines and keeps both outputs; a list of machines is run in order; a relay hands
over from a first machine to one that is chosen by how the first ended.  Dependent sequencing is the
relay that goes on after an output.  The next machine always starts without an answer, within the
same turn in which the one before it ended.
-/
import ResumableParsing.Machine.Basic

namespace ResumableParsing

variable {ι ν α β κ : Type}

namespace Machine

/-! ## Changing the output -/

/-- What a turn comes to once its output is changed. -/
def mapOutput (f : α → β) : Resumed ι α → Resumed ι β
  | .suspend q => .suspend q
  | .complete a => .complete (f a)
  | .fail e => .fail e

/-- Apply a function to the output. -/
def map (p : Machine ι ν α) (f : α → β) : Machine ι ν β where
  State := p.State
  init := p.init
  resume s r :=
    let t := p.resume s r
    ⟨t.state, mapOutput f t.resumed, t.notes⟩

/-! ## Pairs -/

/-- The states of a pair: in the first machine, or in the second with the first output, which is
given away only once. -/
inductive Pairing (σ α τ : Type) where
  /-- The first machine runs. -/
  | first (s : σ)
  /-- The second machine runs. -/
  | second (a : Option α) (s : τ)

/-- A turn of the second machine of a pair. -/
def pairSecond {σ τ : Type} (a : Option α) (t : Turn τ ι ν β) :
    Turn (Pairing σ α τ) ι ν (α × β) :=
  match t.resumed, a with
  | .suspend q, a => ⟨.second a t.state, .suspend q, t.notes⟩
  | .fail e, a => ⟨.second a t.state, .fail e, t.notes⟩
  | .complete b, some a => ⟨.second none t.state, .complete (a, b), t.notes⟩
  | .complete _, none =>
    ⟨.second none t.state, .fail (.violation "resumed after completion"), t.notes⟩

/-- Run two machines, the second where the first ended. -/
def pair (p : Machine ι ν α) (q : Machine ι ν β) : Machine ι ν (α × β) where
  State := Pairing p.State α q.State
  init := .first p.init
  resume
    | .first s, r =>
      let t := p.resume s r
      match t.resumed with
      | .suspend req => ⟨.first t.state, .suspend req, t.notes⟩
      | .fail e => ⟨.first t.state, .fail e, t.notes⟩
      | .complete a => (pairSecond (some a) q.start).after t.notes
    | .second a s, r => pairSecond a (q.resume s r)

/-! ## Lists -/

/-- The machine with nothing to do: every resumption completes it. -/
def nil : Machine ι ν (List α) where
  State := Unit
  init := ()
  resume _ _ := ⟨(), .complete [], []⟩

/-- A turn of the machines behind the head of a list. -/
def consTail {σ τ : Type} (a : α) (t : Turn τ ι ν (List α)) :
    Turn (σ ⊕ α × τ) ι ν (List α) :=
  ⟨.inr (a, t.state), mapOutput (a :: ·) t.resumed, t.notes⟩

/-- Run a machine and then the machines behind it. -/
def cons (p : Machine ι ν α) (rest : Machine ι ν (List α)) : Machine ι ν (List α) where
  State := p.State ⊕ α × rest.State
  init := .inl p.init
  resume
    | .inl s, r =>
      let t := p.resume s r
      match t.resumed with
      | .suspend req => ⟨.inl t.state, .suspend req, t.notes⟩
      | .fail e => ⟨.inl t.state, .fail e, t.notes⟩
      | .complete a => (consTail a rest.start).after t.notes
    | .inr (a, s), r => consTail a (rest.resume s r)

/-- Start over once an output was put out. -/
def rewinding (p : Machine ι ν α) : Machine ι ν α where
  State := p.State
  init := p.init
  resume s r :=
    let t := p.resume s r
    match t.resumed with
    | .complete a => ⟨p.init, .complete a, t.notes⟩
    | other => ⟨t.state, other, t.notes⟩

/-- Run every machine of a list in order and put out the list of the outputs. -/
def all (ps : List (Machine ι ν α)) : Machine ι ν (List α) :=
  rewinding (ps.foldr cons nil)

/-! ## Relays -/

/-- What follows the end of the first machine of a relay. -/
inductive Next (κ ι β : Type) where
  /-- The machine chosen by `k` takes over. -/
  | start (k : κ)
  /-- The relay completes. -/
  | complete (b : β)
  /-- The relay fails. -/
  | fail (e : Failure ι)

/-- Run `p`, and when it ends start the machine that its output or its failure calls for, if any. -/
def relay (p : Machine ι ν α) (completed : α → Next κ ι β) (failed : Failure ι → Next κ ι β)
    (next : κ → Machine ι ν β) : Machine ι ν β where
  State := p.State ⊕ (k : κ) × (next k).State
  init := .inl p.init
  resume
    | .inl s, r =>
      let t := p.resume s r
      let follow (n : Next κ ι β) : Turn (p.State ⊕ (k : κ) × (next k).State) ι ν β :=
        match n with
        | .start k => ((next k).start.within fun s => .inr ⟨k, s⟩).after t.notes
        | .complete b => ⟨.inl t.state, .complete b, t.notes⟩
        | .fail e => ⟨.inl t.state, .fail e, t.notes⟩
      match t.resumed with
      | .suspend req => ⟨.inl t.state, .suspend req, t.notes⟩
      | .complete a => follow (completed a)
      | .fail e => follow (failed e)
    | .inr ⟨k, s⟩, r => ((next k).resume s r).within fun s => .inr ⟨k, s⟩

/-- Run `p`, and then the machine built from its output. -/
def bind (p : Machine ι ν α) (f : α → Machine ι ν β) : Machine ι ν β :=
  p.relay .start .fail f

end Machine

end ResumableParsing
