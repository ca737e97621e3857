/-
# Values

The outputs of grammar scripts have one type, whatever the grammar.  Every value has a key, a text
by which scripts compare values and join them, and may be read as an integer through its key.
-/
import ResumableParsing.Error
import ResumableParsing.Exchange
import ResumableParsing.Script.Datum

namespace ResumableParsing

/-- An output of a grammar script that reads items of type `ι`. -/
inductive Value (ι : Type) where
  /-- The output of a grammar that has nothing to say. -/
  | unit
  /-- The end of the input. -/
  | endOfInput
  /-- An item. -/
  | item (x : ι)
  /-- The absence of an optional value. -/
  | absent
  /-- The presence of an optional value. -/
  | present (v : Value ι)
  /-- The outputs of a list or a repetition. -/
  | list (vs : List (Value ι))
  /-- The outputs of a sequence. -/
  | tuple (vs : List (Value ι))
  /-- A token. -/
  | token (t : Token)
  /-- A constant of the script. -/
  | const (d : Datum)
  /-- A number that was computed. -/
  | number (n : Int)
  /-- A text that was computed. -/
  | text (s : String)
  /-- A value under a name. -/
  | tag (name : String) (v : Value ι)
  /-- A failure that was caught. -/
  | failure (e : Failure ι)

variable {ι : Type}

namespace Value

/-- An optional value. -/
def ofOption : Option (Value ι) → Value ι
  | none => absent
  | some v => present v

/-- An optional item. -/
def ofItem? : Option ι → Value ι
  | none => absent
  | some x => present (item x)

/-- The elements of a list or a tuple; other values have none. -/
def elements : Value ι → List (Value ι)
  | list vs | tuple vs => vs
  | _ => []

end Value

/-! ## Keys -/

variable [Item ι]

mutual

/-- The text by which values are compared and joined. -/
def Value.key : Value ι → String
  | .unit | .endOfInput | .absent => ""
  | .item x => Item.text x
  | .present v => v.key
  | .list vs | .tuple vs => Value.keys vs
  | .token t => sessionText t.session ++ "@" ++ toString t.offset
  | .const (.string s) => s
  | .const d => d.text
  | .number n => toString n
  | .text s => s
  | .tag name v => name ++ v.key
  | .failure e => e.code.text

/-- The keys of values, one after the other. -/
def Value.keys : List (Value ι) → String
  | [] => ""
  | v :: vs => v.key ++ Value.keys vs

end

/-! ## Integers -/

/-- The least and the greatest integer that scripts compute with. -/
def integerBounds : Int × Int := (-9223372036854775808, 9223372036854775807)

/-- The number that a list of decimal digits stands for. -/
def ofDigits (ds : List Char) : Nat := ds.foldl (fun n d => 10 * n + (d.toNat - '0'.toNat)) 0

/-- Read an integer within the bounds: a sign or none, and then one or more decimal digits. -/
def readInteger (cs : List Char) : Option Int :=
  let (negative, digits) := match cs with
    | '-' :: rest => (true, rest)
    | '+' :: rest => (false, rest)
    | cs => (false, cs)
  if digits.isEmpty || !digits.all Char.isDigit then none
  else
    let n : Int := if negative then -(ofDigits digits : Int) else ofDigits digits
    if integerBounds.1 ≤ n ∧ n ≤ integerBounds.2 then some n else none

/-- The integer that the key of a value stands for, or zero. -/
def Value.integer (v : Value ι) : Int := (readInteger v.key.toList).getD 0

/-! ## Computing with values -/

/-- The functions that scripts apply to outputs. -/
inductive Transform where
  /-- The number of elements. -/
  | length
  /-- The key, as a text. -/
  | join
  /-- The integer. -/
  | integer
  /-- The integer and one more, as far as the bounds allow. -/
  | successor
  /-- Nothing. -/
  | unit
  /-- The element at a place, counted from zero. -/
  | nth (k : Nat)
  /-- The value under a name. -/
  | tag (name : String)

/-- Apply a function to a value. -/
def Transform.apply : Transform → Value ι → Value ι
  | length, v => .number v.elements.length
  | join, v => .text v.key
  | integer, v => .number v.integer
  | successor, v => .number (min (v.integer + 1) integerBounds.2)
  | unit, _ => .unit
  | nth k, v => v.elements[k]?.getD .unit
  | tag name, v => .tag name v

end ResumableParsing
