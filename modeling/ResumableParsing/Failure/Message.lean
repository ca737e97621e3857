/-
# The text of a failure

How failures read.  A failure that gathers others lists them one after the other, each with its own
severity and context.
-/
import ResumableParsing.Failure.Basic
import ResumableParsing.Item

namespace ResumableParsing

variable {ι : Type} [Item ι]

mutual

/-- The text of a cause. -/
def Cause.text : Cause ι → String
  | .unexpected found expected =>
    "unexpected " ++ Item.quoted found ++ ", expected " ++ expected
  | .endOfInput expected => "unexpected end of input, expected " ++ expected
  | .aggregate [] => "no alternative matched: no alternatives"
  | .aggregate (f :: fs) => "no alternative matched: " ++ f.text ++ Failure.textRest fs
  | .message detail => detail
  | .protocol detail => "protocol violation: " ++ detail

/-- The text of a failure: its severity if fatal, its cause, and its context in parentheses. -/
def Failure.text : Failure ι → String
  | ⟨c, severity, context⟩ =>
    let mark := match severity with
      | .recoverable => ""
      | .fatal => "fatal: "
    let place := match context with
      | none => ""
      | some c => " (" ++ c ++ ")"
    mark ++ c.text ++ place

/-- The texts of further failures, each after a semicolon. -/
def Failure.textRest : List (Failure ι) → String
  | [] => ""
  | f :: fs => "; " ++ f.text ++ Failure.textRest fs

end

end ResumableParsing
