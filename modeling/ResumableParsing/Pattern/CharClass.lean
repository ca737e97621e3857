/-
# Classes of characters

What one character of a pattern may stand for: ranges, the classes of digits, blanks and word
characters, and their unions, intersections and complements.  A folded class also holds every
character that differs from one of its members only by case.
-/
import ResumableParsing.Text.Blank
import ResumableParsing.Text.CaseFold
import ResumableParsing.Text.Word

namespace ResumableParsing

/-- A description of a set of characters. -/
inductive CharClass where
  /-- No character. -/
  | none
  /-- The characters from `lo` to `hi`. -/
  | range (lo hi : Char)
  /-- The decimal digits. -/
  | digit
  /-- White space. -/
  | blank
  /-- The characters of words. -/
  | word
  /-- The characters of either class. -/
  | union (a b : CharClass)
  /-- The characters of both classes. -/
  | both (a b : CharClass)
  /-- The characters that the class does not hold. -/
  | complement (a : CharClass)
  /-- The characters that have a case variant in the class. -/
  | folded (a : CharClass)

namespace CharClass

/-- Whether a class holds a character. -/
def contains : CharClass → Char → Bool
  | none, _ => false
  | range lo hi, c => lo.toNat ≤ c.toNat && c.toNat ≤ hi.toNat
  | digit, c => isDecimalDigit c
  | blank, c => isBlank c
  | word, c => isWordCharacter c
  | union a b, c => a.contains c || b.contains c
  | both a b, c => a.contains c && b.contains c
  | complement a, c => !a.contains c
  | folded a, c => (caseVariants c.toNat).any fun n => a.contains (Char.ofNat n)

/-- The class that holds one character. -/
def singleton (c : Char) : CharClass := range c c

/-- The characters of any of the classes. -/
def unions (classes : List CharClass) : CharClass := classes.foldr union none

/-- The class or its complement. -/
def negatedIf (negated : Bool) (a : CharClass) : CharClass := if negated then complement a else a

/-- The class, folded if case does not matter. -/
def foldedIf (ignoringCase : Bool) (a : CharClass) : CharClass :=
  if ignoringCase then folded a else a

end CharClass

end ResumableParsing
