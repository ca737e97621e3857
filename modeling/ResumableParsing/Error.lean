/-
# Errors

What can end a parse besides the end of the input: a failure that escaped the computation, a use of
the engine or of a token that makes no sense, or too much input held back.  Every error has a stable
code and a text.
-/
import ResumableParsing.Failure.Message

namespace ResumableParsing

variable {ι : Type}

/-! ## Codes -/

/-- The stable identifiers of errors. -/
inductive ErrorCode where
  /-- An item that was not expected. -/
  | e1001
  /-- The end of the input where an item was expected. -/
  | e1002
  /-- Several alternatives that failed equally far. -/
  | e1003
  /-- A failure in a grammar's own words. -/
  | e1004
  /-- An answer that was not asked for. -/
  | e1005
  /-- A completion without any request. -/
  | e2001
  /-- A completion that left the cursor where it was, before input. -/
  | e2002
  /-- A token of another session. -/
  | e2003
  /-- A token for a place outside the window. -/
  | e2004
  /-- Input after its end was declared. -/
  | e2005
  /-- Use of an engine that an error has ended. -/
  | e2006
  /-- More items held back than allowed. -/
  | e3001
  deriving DecidableEq

/-- A code as it is written. -/
def ErrorCode.text : ErrorCode → String
  | e1001 => "E1001"
  | e1002 => "E1002"
  | e1003 => "E1003"
  | e1004 => "E1004"
  | e1005 => "E1005"
  | e2001 => "E2001"
  | e2002 => "E2002"
  | e2003 => "E2003"
  | e2004 => "E2004"
  | e2005 => "E2005"
  | e2006 => "E2006"
  | e3001 => "E3001"

/-- Whether the code is that of a failure of a computation. -/
def ErrorCode.isFailure : ErrorCode → Bool
  | e1001 | e1002 | e1003 | e1004 | e1005 => true
  | _ => false

/-- Whether the code is that of a misuse. -/
def ErrorCode.isUsage : ErrorCode → Bool
  | e2001 | e2002 | e2003 | e2004 | e2005 | e2006 => true
  | _ => false

/-- The code of a failure is that of its cause. -/
def Failure.code (f : Failure ι) : ErrorCode :=
  match f.cause with
  | .unexpected .. => .e1001
  | .endOfInput .. => .e1002
  | .aggregate .. => .e1003
  | .message .. => .e1004
  | .protocol .. => .e1005

/-! ## Misuse -/

/-- The ways in which an engine or a token can be misused. -/
inductive UsageError where
  /-- A computation completed without asking for anything. -/
  | noConsumption
  /-- A computation completed where it began, although there is input. -/
  | noProgress (offset : Nat)
  /-- A token of the session `token` was used in the session `current`. -/
  | foreignSnapshot (token current : Nat)
  /-- A token for a place that is not between `start` and `stop`. -/
  | staleSnapshot (offset start stop : Nat)
  /-- Input was fed after its end was declared. -/
  | inputFinished
  /-- An engine was used that an error had ended. -/
  | aborted
  deriving DecidableEq

/-- The code of a misuse. -/
def UsageError.code : UsageError → ErrorCode
  | noConsumption => .e2001
  | noProgress _ => .e2002
  | foreignSnapshot .. => .e2003
  | staleSnapshot .. => .e2004
  | inputFinished => .e2005
  | aborted => .e2006

/-- The name of a session. -/
def sessionText (session : Nat) : String := "#" ++ toString session

/-- The text of a misuse. -/
def UsageError.text : UsageError → String
  | noConsumption => "computation completed without requesting any input"
  | noProgress offset =>
    "computation completed at offset " ++ toString offset ++ " without consuming buffered input"
  | foreignSnapshot token current =>
    "snapshot from session " ++ sessionText token ++ " replayed into session "
      ++ sessionText current
  | staleSnapshot offset start stop =>
    "snapshot offset " ++ toString offset ++ " lies outside the retained input "
      ++ toString start ++ "..=" ++ toString stop
  | inputFinished => "input already finished"
  | aborted => "driver was aborted by an earlier failure"

/-! ## Errors of a parse -/

/-- What ends a parse. -/
inductive ParseError (ι : Type) where
  /-- A failure escaped while the cursor was at `offset`. -/
  | failure (f : Failure ι) (offset : Nat)
  /-- Something was misused. -/
  | usage (e : UsageError)
  /-- More items are retained than the limit allows. -/
  | bufferOverflow (retained limit : Nat)

/-- The code of an error. -/
def ParseError.code : ParseError ι → ErrorCode
  | failure f _ => f.code
  | usage e => e.code
  | bufferOverflow .. => .e3001

/-- The offset of a failure; other errors have none. -/
def ParseError.offset? : ParseError ι → Option Nat
  | failure _ offset => some offset
  | _ => none

/-- The text of an error. -/
def ParseError.text [Item ι] : ParseError ι → String
  | failure f offset => f.text ++ " at offset " ++ toString offset
  | usage e => e.text
  | bufferOverflow retained limit =>
    "retained buffer holds " ++ toString retained ++ " items, limit is " ++ toString limit

end ResumableParsing
