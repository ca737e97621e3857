/-
# The exchange between a computation and its input

A computation never sees the input.  It suspends with a request, and is resumed with an answer:

* `peek` asks for the item at the cursor, or to be told that the input has ended;
* `consume` asks for the same and moves the cursor behind the item;
* `snapshot` asks for a token that stands for the cursor;
* `rollback` asks that the cursor return to where a token was captured, and is answered with that
  token.
-/
import ResumableParsing.Failure.Basic

namespace ResumableParsing

variable {ι ο α : Type}

/-- A captured cursor: the session that it belongs to, and the offset in the stream. -/
structure Token where
  /-- The number of the session in which the cursor was captured. -/
  session : Nat
  /-- The number of items before the cursor. -/
  offset : Nat
  deriving DecidableEq

/-- What a suspended computation asks for. -/
inductive Request where
  /-- The item at the cursor. -/
  | peek
  /-- The item at the cursor, which is then behind the cursor. -/
  | consume
  /-- A token for the cursor. -/
  | snapshot
  /-- The cursor's return to a captured place. -/
  | rollback (token : Token)
  deriving DecidableEq

/-- What a suspended computation is told. -/
inductive Response (ι : Type) where
  /-- The item at the cursor. -/
  | item (x : ι)
  /-- There is no item and there will be none. -/
  | endOfInput
  /-- The token for a captured or restored cursor. -/
  | token (t : Token)
  deriving DecidableEq

/-- The item of a response that carries one. -/
def Response.item? : Response ι → Option ι
  | .item x => some x
  | _ => none

/-- The token of a response that carries one. -/
def Response.token? : Response ι → Option Token
  | .token t => some t
  | _ => none

/-- What one resumption of a computation comes to. -/
inductive Resumed (ι ο : Type) where
  /-- The computation waits for an answer. -/
  | suspend (request : Request)
  /-- The computation has ended with an output. -/
  | complete (output : ο)
  /-- The computation has failed. -/
  | fail (failure : Failure ι)

/-- Read an answer to a request for a token. -/
def expectToken : Option (Response ι) → Except (Failure ι) Token
  | some (.token t) => .ok t
  | _ => .error (.violation "expected a snapshot token")

end ResumableParsing
