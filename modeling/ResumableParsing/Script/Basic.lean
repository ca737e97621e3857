/-
# Grammar scripts

A grammar script is a grammar written down as data: it has names for the outputs of its parts
instead of functions, and one type of outputs.  Names are bound by dependent sequencing and by
handlers, and an inner binding hides an outer one.
-/
import ResumableParsing.Machine.Basic
import ResumableParsing.Pattern.Reading
import ResumableParsing.Script.Value

namespace ResumableParsing

/-! ## Tests of items -/

/-- Classes of characters that scripts can name. -/
inductive CharacterKind where
  /-- The digits of ASCII. -/
  | digit
  /-- The letters of ASCII. -/
  | letter
  /-- Alphabetic characters. -/
  | alphabetic
  /-- White space. -/
  | blank

/-- Whether a character is of a kind. -/
def CharacterKind.holds : CharacterKind → Char → Bool
  | digit, c => c.isDigit
  | letter, c => c.isAlpha
  | alphabetic, c => isAlphabetic c
  | blank, c => isBlank c

/-- Tests of items. -/
inductive ItemTest (ι : Type) where
  /-- Every item passes. -/
  | always
  /-- No item passes. -/
  | never
  /-- The items pass that do not pass another test. -/
  | not (t : ItemTest ι)
  /-- The items between two others pass. -/
  | range (lo hi : ι)
  /-- The items pass that are characters of a kind. -/
  | character (k : CharacterKind)

/-- Whether an item passes a test. -/
def ItemTest.passes {ι : Type} [Item ι] : ItemTest ι → ι → Bool
  | always, _ => true
  | never, _ => false
  | not t, x => !t.passes x
  | range lo hi, x => Item.isBetween lo hi x
  | character k, x => (Item.character? x).any k.holds

/-! ## Scripts -/

/-- A request of a computation that is written out request by request. -/
inductive WrittenRequest where
  /-- The request itself. -/
  | plain (q : Request)
  /-- To go back to the token that was the answer at a place, counted from zero. -/
  | backTo (answer : Nat)

/-- A token that a script names or writes out. -/
inductive TokenSource where
  /-- The token bound to a name. -/
  | bound (name : String)
  /-- The token itself. -/
  | explicit (t : Token)

/-- Grammar scripts that read items of type `ι`. -/
inductive Script (ι : Type) where
  /-- Exactly one item. -/
  | literal (x : ι)
  /-- One of several items. -/
  | oneOf (xs : List ι)
  /-- Any item. -/
  | any
  /-- The end of the input. -/
  | endOfInput
  /-- An item that passes a test. -/
  | satisfy (expected : String) (test : ItemTest ι)
  /-- An item whose whole text matches a pattern. -/
  | pattern (p : Pattern .standard)
  /-- The item at the cursor. -/
  | peek
  /-- The item at the cursor, if any. -/
  | peekOrEnd
  /-- The item at the cursor, taken. -/
  | consume
  /-- The item at the cursor, taken, if any. -/
  | consumeOrEnd
  /-- A token for the cursor. -/
  | snapshot
  /-- Back to a token. -/
  | rollback (t : TokenSource)
  /-- A computation that is written out request by request. -/
  | written (qs : List WrittenRequest)
  /-- A failure in the script's words. -/
  | fail (detail : String)
  /-- A fatal failure in the script's words. -/
  | failFatally (detail : String)
  /-- The failure bound to a name. -/
  | failAgain (name : String)
  /-- A failure in the words of the failure bound to a name. -/
  | failInWordsOf (name : String)
  /-- One after the other. -/
  | pair (p q : Script ι)
  /-- Three in order. -/
  | sequence₃ (p q r : Script ι)
  /-- Four in order. -/
  | sequence₄ (p q r s : Script ι)
  /-- A list in order. -/
  | all (ps : List (Script ι))
  /-- A body between brackets. -/
  | between (opening body closing : Script ι)
  /-- The first that does not fail. -/
  | choice (ps : List (Script ι))
  /-- The first of two that does not fail. -/
  | orElse (p q : Script ι)
  /-- At least `min` and at most `max` times. -/
  | repetition (p : Script ι) (min : Nat) (max : Option Nat)
  /-- Any number of times. -/
  | many (p : Script ι)
  /-- At least a number of times. -/
  | atLeast (p : Script ι) (n : Nat)
  /-- Once or not at all. -/
  | optional (p : Script ι)
  /-- A function of the output. -/
  | map (p : Script ι) (f : Transform)
  /-- `q` after `p`, whose output is bound to a name. -/
  | bind (p : Script ι) (name : String) (q : Script ι)
  /-- `q` after a recoverable failure of `p`, which is bound to a name. -/
  | rescue (p : Script ι) (name : String) (q : Script ι)
  /-- `q` after a recoverable failure of `p`. -/
  | recoverWith (p q : Script ι)
  /-- No failure is recovered from. -/
  | fatal (p : Script ι)
  /-- Failures are told what was being parsed. -/
  | label (p : Script ι) (construct : String)
  /-- A rule of the script's rule book. -/
  | call (rule : String)
  /-- A constant. -/
  | const (d : Datum)
  /-- The value bound to a name. -/
  | value (name : String)
  /-- The item bound to a name. -/
  | same (name : String)
  /-- As many times as the integer bound to a name says. -/
  | times (name : String) (p : Script ι)
  /-- The script whose key is that of the value bound to a name, or the last one. -/
  | case (name : String) (arms : List (String × Script ι)) (otherwise : Script ι)
  /-- Resumptions are noted under a name. -/
  | spy (name : String) (p : Script ι)

/-- What is noted of a resumption: under which name, what it was told and what it came to. -/
structure Note (ι : Type) where
  /-- The name under which the computation is observed. -/
  name : String
  /-- What the computation was told. -/
  response : Option (Response ι)
  /-- What the resumption came to. -/
  resumed : Resumed ι (Value ι)

end ResumableParsing
