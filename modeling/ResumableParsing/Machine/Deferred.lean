/-
# Constant, deferred and observed machines

A machine that asks nothing; a machine that is built only when it is first resumed, which lets
grammars refer to themselves; and a machine whose resumptions are noted.
-/
import ResumableParsing.Machine.Basic

namespace ResumableParsing

variable {ι ν α : Type}

namespace Machine

/-- Complete at once with a value. -/
def pure (a : α) : Machine ι ν α where
  State := Bool
  init := false
  resume
    | false, _ => ⟨true, .complete a, []⟩
    | true, _ => ⟨true, .fail (.violation "resumed after completion"), []⟩

/-- Build the machine when it is first resumed. -/
def deferred (build : Unit → Machine ι ν α) : Machine ι ν α where
  State := Option (build ()).State
  init := none
  resume s r :=
    let m := build ()
    (m.resume (s.getD m.init) r).within some

/-- A machine that looks at the cursor forever: it never completes and never fails. -/
def stalled : Machine ι ν α where
  State := Unit
  init := ()
  resume _ _ := ⟨(), .suspend .peek, []⟩

/-- Note every resumption, when it is over, by what it was told and what it came to. -/
def tap (p : Machine ι ν α) (mark : Option (Response ι) → Resumed ι α → ν) : Machine ι ν α where
  State := p.State
  init := p.init
  resume s r :=
    let t := p.resume s r
    ⟨t.state, t.resumed, t.notes ++ [mark r t.resumed]⟩

end Machine

end ResumableParsing
