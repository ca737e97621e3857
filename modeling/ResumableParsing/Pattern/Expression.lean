/-
# Regular expressions and what they match

An expression describes stretches of a text.  Matching is done on sets of positions: an expression
carries the positions at which its stretches may begin to the positions at which they may end.  A
text of `n` characters has `n + 1` positions, and a set of them is a list of that many truth values.
-/
import ResumableParsing.Pattern.CharClass

namespace ResumableParsing

/-! ## Expressions -/

/-- Conditions on a position that take no character. -/
inductive Assertion where
  /-- The text begins here. -/
  | textStart
  /-- The text ends here. -/
  | textEnd
  /-- A line begins here. -/
  | lineStart
  /-- A line ends here. -/
  | lineEnd
  /-- A word begins or ends here. -/
  | wordBoundary
  /-- No word begins or ends here. -/
  | noWordBoundary
  /-- A word begins here. -/
  | wordStart
  /-- A word ends here. -/
  | wordEnd
  deriving DecidableEq

/-- Regular expressions. -/
inductive Expression where
  /-- The empty stretch. -/
  | empty
  /-- One character of a class. -/
  | oneOf (class_ : CharClass)
  /-- The empty stretch where a condition holds. -/
  | assert (a : Assertion)
  /-- One stretch after the other. -/
  | append (a b : Expression)
  /-- A stretch of either expression. -/
  | either (a b : Expression)
  /-- Between `min` and `max` stretches one after the other; no `max` means no bound. -/
  | times (a : Expression) (min : Nat) (max : Option Nat)

/-- One expression after the other. -/
def Expression.appendAll (es : List Expression) : Expression := es.foldr .append .empty

/-- Any of some expressions; without one there are no stretches. -/
def Expression.eitherAll (es : List Expression) : Expression := es.foldr .either (.oneOf .none)

/-! ## Conditions on positions -/

/-- Whether there is a word character. -/
def isWordAt (c : Option Char) : Bool := c.any isWordCharacter

/-- Whether a condition holds between two neighbouring characters, of which the ends of the text
lack one. -/
def Assertion.holds (before after : Option Char) : Assertion → Bool
  | textStart => before.isNone
  | textEnd => after.isNone
  | lineStart => before.isNone || before == some '\n'
  | lineEnd => after.isNone || after == some '\n'
  | wordBoundary => isWordAt before != isWordAt after
  | noWordBoundary => isWordAt before == isWordAt after
  | wordStart => !isWordAt before && isWordAt after
  | wordEnd => isWordAt before && !isWordAt after

/-! ## Sets of positions -/

/-- A set of positions of a text: whether each position belongs to it, from the first to the
last. -/
abbrev Positions := List Bool

/-- Every position of a text. -/
def Positions.full (text : List Char) : Positions := List.replicate (text.length + 1) true

/-- The positions of either set. -/
def Positions.union (p q : Positions) : Positions := List.zipWith or p q

/-- The positions at which a condition holds. -/
def Assertion.positions (a : Assertion) (before : Option Char) : List Char → Positions
  | [] => [a.holds before none]
  | c :: text => a.holds before (some c) :: a.positions (some c) text

/-- The positions behind a character of the class that stands at one of the given positions. -/
def CharClass.advance (k : CharClass) (text : List Char) (p : Positions) : Positions :=
  false :: List.zipWith (fun c b => b && k.contains c) text p

/-- Apply a step a number of times. -/
def Positions.iterate (step : Positions → Positions) : Nat → Positions → Positions
  | 0, p => p
  | n + 1, p => iterate step n (step p)

/-- Add what up to the given number of steps lead to; a step that adds nothing is the last. -/
def Positions.closure (step : Positions → Positions) : Nat → Positions → Positions
  | 0, p => p
  | n + 1, p =>
    let q := p.union (step p)
    if q = p then p else closure step n q

/-! ## Matching -/

namespace Expression

/-- The positions at which stretches of the expression end that begin at the given positions.  There
are no more than `text.length + 1` positions, so that many steps reach all that any number of steps
can reach. -/
def ends (text : List Char) : Expression → Positions → Positions
  | empty, p => p
  | oneOf k, p => k.advance text p
  | assert a, p => List.zipWith and (a.positions none text) p
  | append a b, p => b.ends text (a.ends text p)
  | either a b, p => (a.ends text p).union (b.ends text p)
  | times a min max, p =>
    let steps := match max with
      | some m => m - min
      | none => text.length + 1
    Positions.closure (a.ends text) steps (Positions.iterate (a.ends text) min p)

/-- Whether the expression describes some stretch of the text. -/
def occursIn (e : Expression) (text : List Char) : Bool :=
  (e.ends text (Positions.full text)).any id

end Expression

end ResumableParsing
