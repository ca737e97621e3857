/-
# Handling failures

A recoverable failure may be answered by another machine, which goes on at the cursor that the
failed one left; a fatal failure passes every handler.  Failures on their way out can be made fatal
and be told in which construct they arose.
-/
import ResumableParsing.Machine.Sequencing

namespace ResumableParsing

variable {ι ν α : Type}

namespace Machine

/-! ## Recovery -/

/-- Run `p`, and on a recoverable failure the machine built from the failure. -/
def rescue (p : Machine ι ν α) (handler : Failure ι → Machine ι ν α) : Machine ι ν α :=
  p.relay .complete (fun e => if e.isFatal then .fail e else .start e) handler

/-- Run `p`, and on a recoverable failure run `q`. -/
def recoverWith (p q : Machine ι ν α) : Machine ι ν α :=
  p.relay .complete (fun e => if e.isFatal then .fail e else .start ()) fun _ => q

/-! ## Changing a failure on its way out -/

/-- What a turn comes to once its failure is changed. -/
def mapFailure (f : Failure ι → Failure ι) : Resumed ι α → Resumed ι α
  | .fail e => .fail (f e)
  | other => other

/-- Apply a function to the failure. -/
def changeFailure (p : Machine ι ν α) (f : Failure ι → Failure ι) : Machine ι ν α where
  State := p.State
  init := p.init
  resume s r :=
    let t := p.resume s r
    ⟨t.state, mapFailure f t.resumed, t.notes⟩

/-- Let no failure of `p` be recovered from. -/
def fatal (p : Machine ι ν α) : Machine ι ν α := p.changeFailure Failure.toFatal

/-- Tell failures of `p` that they arose while `construct` was parsed. -/
def label (p : Machine ι ν α) (construct : String) : Machine ι ν α :=
  p.changeFailure (·.whileParsing construct)

end Machine

end ResumableParsing
