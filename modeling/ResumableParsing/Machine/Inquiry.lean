/-
# Machines that ask the input one thing

The smallest machines: an inquiry sends one request and reads the answer; `satisfy` looks at an item
and takes it if it is the right one; `endOfInput` makes sure that nothing is left.
-/
import ResumableParsing.Machine.Basic

namespace ResumableParsing

variable {ι ν α : Type}

/-! ## Inquiries -/

/-- A request together with what its answer means. -/
inductive Inquiry (ι : Type) : Type → Type where
  /-- The item at the cursor. -/
  | peek : Inquiry ι ι
  /-- The item at the cursor, or nothing at the end of the input. -/
  | peekOrEnd : Inquiry ι (Option ι)
  /-- The item at the cursor, which is taken. -/
  | consume : Inquiry ι ι
  /-- The item at the cursor, which is taken, or nothing at the end of the input. -/
  | consumeOrEnd : Inquiry ι (Option ι)
  /-- A token for the cursor. -/
  | snapshot : Inquiry ι Token
  /-- The cursor's return to a token. -/
  | rollback (token : Token) : Inquiry ι Token

/-- What an inquiry asks for. -/
def Inquiry.request : Inquiry ι α → Request
  | .peek | .peekOrEnd => .peek
  | .consume | .consumeOrEnd => .consume
  | .snapshot => .snapshot
  | .rollback t => .rollback t

/-- An item or the end of the input; a token answers another question. -/
def readItemOrEnd : Response ι → Except (Failure ι) (Option ι)
  | .item x => .ok (some x)
  | .endOfInput => .ok none
  | .token _ => .error (.violation "expected an item")

/-- An item; the end of the input is a failure. -/
def readItem : Response ι → Except (Failure ι) ι
  | .item x => .ok x
  | .endOfInput => .error (.endOfInput "any item")
  | .token _ => .error (.violation "expected an item")

/-- What an inquiry makes of an answer. -/
def Inquiry.read : Inquiry ι α → Response ι → Except (Failure ι) α
  | .peek, r | .consume, r => readItem r
  | .peekOrEnd, r | .consumeOrEnd, r => readItemOrEnd r
  | .snapshot, r | .rollback _, r => expectToken (some r)

namespace Machine

/-- Send the request of an inquiry, then read every answer as the answer to it. -/
def ask (q : Inquiry ι α) : Machine ι ν α where
  State := Bool
  init := false
  resume
    | false, _ => ⟨true, .suspend q.request, []⟩
    | true, none => ⟨true, .fail (.violation "resumed without an answer"), []⟩
    | true, some r =>
      match q.read r with
      | .ok a => ⟨true, .complete a, []⟩
      | .error f => ⟨true, .fail f, []⟩

/-! ## Testing items -/

/-- How far a test of an item has come. -/
inductive Testing where
  /-- Nothing was asked yet. -/
  | start
  /-- The item at the cursor was asked for. -/
  | looked
  /-- The item passed and was taken. -/
  | taken
  deriving DecidableEq

/-- Take the item at the cursor if it is accepted; otherwise leave it where it is and fail. -/
def satisfy (expected : String) (accepts : ι → Bool) : Machine ι ν ι where
  State := Testing
  init := .start
  resume
    | .start, _ => ⟨.looked, .suspend .peek, []⟩
    | .looked, some (.item x) =>
      if accepts x then ⟨.taken, .suspend .consume, []⟩
      else ⟨.looked, .fail (.unexpected x expected), []⟩
    | .taken, some (.item x) => ⟨.taken, .complete x, []⟩
    | s, some .endOfInput => ⟨s, .fail (.endOfInput expected), []⟩
    | s, _ => ⟨s, .fail (.violation "expected an item"), []⟩

/-- Complete if no item is left. -/
def endOfInput : Machine ι ν Unit where
  State := Bool
  init := false
  resume
    | false, _ => ⟨true, .suspend .peek, []⟩
    | true, some .endOfInput => ⟨true, .complete (), []⟩
    | true, some (.item x) => ⟨true, .fail (.unexpected x "end of input"), []⟩
    | true, _ => ⟨true, .fail (.violation "expected an item"), []⟩

end Machine

end ResumableParsing
