/-
# Machines

A machine builds computations that are run piece by piece: each resumption takes the answer to the
last request (none at first) and comes to a new state together with a request, an output or a
failure.  A resumption may also leave notes, which no computation can read; they tell an observer
what happened inside.
-/
import ResumableParsing.Exchange

namespace ResumableParsing

variable {ι ν ο α β σ τ : Type}

/-! ## Turns -/

/-- One resumption of a computation: where it stands now, what it came to, and what it noted. -/
structure Turn (σ ι ν ο : Type) where
  /-- The state in which the next resumption finds the computation. -/
  state : σ
  /-- What the resumption came to. -/
  resumed : Resumed ι ο
  /-- What was noted on the way, in order. -/
  notes : List ν

/-- The same turn, after something else was noted. -/
def Turn.after (notes : List ν) (t : Turn σ ι ν ο) : Turn σ ι ν ο :=
  { t with notes := notes ++ t.notes }

/-- The same turn, seen as the turn of a computation with more states. -/
def Turn.within (embed : σ → τ) (t : Turn σ ι ν ο) : Turn τ ι ν ο :=
  ⟨embed t.state, t.resumed, t.notes⟩

/-- Notes from before do not change the state. -/
@[simp] theorem Turn.state_after (ns : List ν) (t : Turn σ ι ν ο) : (t.after ns).state = t.state :=
  rfl

/-- Notes from before do not change what the turn came to. -/
@[simp] theorem Turn.resumed_after (ns : List ν) (t : Turn σ ι ν ο) :
    (t.after ns).resumed = t.resumed := rfl

/-- Notes from before stand before the notes of the turn. -/
@[simp] theorem Turn.notes_after (ns : List ν) (t : Turn σ ι ν ο) :
    (t.after ns).notes = ns ++ t.notes := rfl

/-- The state goes into that of the machine around. -/
@[simp] theorem Turn.state_within (f : σ → τ) (t : Turn σ ι ν ο) :
    (t.within f).state = f t.state := rfl

/-- What the turn came to is the same from outside. -/
@[simp] theorem Turn.resumed_within (f : σ → τ) (t : Turn σ ι ν ο) :
    (t.within f).resumed = t.resumed := rfl

@[simp] theorem Turn.notes_within (f : σ → τ) (t : Turn σ ι ν ο) :
    (t.within f).notes = t.notes := rfl

/-! ## Machines -/

/-- A machine reads items of type `ι`, notes things of type `ν` and puts out values of type `ο`. -/
structure Machine (ι ν ο : Type) : Type 1 where
  /-- The states of a running computation. -/
  State : Type
  /-- The state of a computation that has not been resumed yet. -/
  init : State
  /-- Resume a computation with the answer to its last request. -/
  resume : State → Option (Response ι) → Turn State ι ν ο

namespace Machine

/-- The first turn of a fresh computation. -/
def start (m : Machine ι ν ο) : Turn m.State ι ν ο := m.resume m.init none

/-- The turns of a computation that is resumed with each of the answers, whatever it comes to. -/
def replay (m : Machine ι ν ο) (s : m.State) : List (Option (Response ι)) →
    List (Turn m.State ι ν ο)
  | [] => []
  | r :: rs => m.resume s r :: m.replay (m.resume s r).state rs

/-- The state of a computation after it was resumed with each of the answers. -/
def stateAfter (m : Machine ι ν ο) (s : m.State) (rs : List (Option (Response ι))) : m.State :=
  rs.foldl (fun s r => (m.resume s r).state) s

@[simp] theorem replay_nil (m : Machine ι ν ο) (s : m.State) : m.replay s [] = [] := rfl

/-- The first resumption leads to the state in which the next one is made. -/
@[simp] theorem replay_cons (m : Machine ι ν ο) (s : m.State) (r : Option (Response ι))
    (rs : List (Option (Response ι))) :
    m.replay s (r :: rs) = m.resume s r :: m.replay (m.resume s r).state rs := rfl

@[simp] theorem stateAfter_nil (m : Machine ι ν ο) (s : m.State) : m.stateAfter s [] = s := rfl

/-- The state after all resumptions is the one after the others, from where the first one leads. -/
@[simp] theorem stateAfter_cons (m : Machine ι ν ο) (s : m.State) (r : Option (Response ι))
    (rs : List (Option (Response ι))) :
    m.stateAfter s (r :: rs) = m.stateAfter (m.resume s r).state rs := rfl

/-- Further answers are met by the state that the earlier ones led to. -/
theorem replay_append (m : Machine ι ν ο) (s : m.State) (rs qs : List (Option (Response ι))) :
    m.replay s (rs ++ qs) = m.replay s rs ++ m.replay (m.stateAfter s rs) qs := by
  induction rs generalizing s with
  | nil => rfl
  | cons r rs ih => simp [ih]

/-- There is one turn for each answer. -/
@[simp] theorem length_replay (m : Machine ι ν ο) (s : m.State)
    (rs : List (Option (Response ι))) : (m.replay s rs).length = rs.length := by
  induction rs generalizing s with
  | nil => rfl
  | cons r rs ih => simp [ih]

end Machine

end ResumableParsing
