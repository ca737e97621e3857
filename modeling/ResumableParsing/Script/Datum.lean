/-
# Data

The constants of grammar scripts: null, truth values, decimal numbers, strings, lists and records.
Their compact text is one line without blanks.
-/

namespace ResumableParsing

/-- A constant of a grammar script. -/
inductive Datum where
  /-- The absence of a value. -/
  | null
  /-- A truth value. -/
  | bool (b : Bool)
  /-- The number `digits / 10 ^ places`. -/
  | number (digits : Int) (places : Nat)
  /-- A string. -/
  | string (s : String)
  /-- A list. -/
  | list (ds : List Datum)
  /-- A record, with its fields in the order in which its text shows them. -/
  | record (fields : List (String × Datum))

/-- A decimal number with the given number of digits behind the point. -/
def decimalText (digits : Int) (places : Nat) : String :=
  let text := (toString digits.natAbs).toList
  let padded := List.replicate (places + 1 - text.length) '0' ++ text
  let whole := padded.take (padded.length - places)
  let fraction := if places = 0 then [] else '.' :: padded.drop (padded.length - places)
  String.ofList ((if digits < 0 then ['-'] else []) ++ whole ++ fraction)

/-- A character inside a string of a compact text. -/
def escapeInString (c : Char) : List Char :=
  if c = '"' then ['\\', '"']
  else if c = '\\' then ['\\', '\\']
  else if c = '\n' then ['\\', 'n']
  else if c = '\r' then ['\\', 'r']
  else if c = '\t' then ['\\', 't']
  else if c = '\x08' then ['\\', 'b']
  else if c = '\x0c' then ['\\', 'f']
  else if c.toNat < 32 then
    let digits := Nat.toDigits 16 c.toNat
    ['\\', 'u'] ++ List.replicate (4 - digits.length) '0' ++ digits
  else [c]

/-- A string in a compact text. -/
def stringText (s : String) : String :=
  String.ofList ('"' :: s.toList.flatMap escapeInString ++ ['"'])

mutual

/-- The compact text of a constant. -/
def Datum.text : Datum → String
  | .null => "null"
  | .bool b => if b then "true" else "false"
  | .number digits places => decimalText digits places
  | .string s => stringText s
  | .list ds => "[" ++ ",".intercalate (Datum.texts ds) ++ "]"
  | .record fields => "\x7b" ++ ",".intercalate (Datum.fieldTexts fields) ++ "\x7d"

/-- The compact texts of constants. -/
def Datum.texts : List Datum → List String
  | [] => []
  | d :: ds => d.text :: Datum.texts ds

/-- The compact texts of the fields of a record. -/
def Datum.fieldTexts : List (String × Datum) → List String
  | [] => []
  | (name, d) :: fields => (stringText name ++ ":" ++ d.text) :: Datum.fieldTexts fields

end

end ResumableParsing
