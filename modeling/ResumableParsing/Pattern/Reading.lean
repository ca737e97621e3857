/-
# Reading patterns

The lexemes of a pattern are put together into an expression with a stack of the groups that are
open.  A group keeps the flags that hold in it, the alternatives before the last bar, and the pieces
since then.  The lexemes of a class in brackets are put together in the same way.  What is read also
says how deep it is nested: a sequence or a choice of several parts, a group, a repetition and a
class in brackets are each one level.
-/
import ResumableParsing.Pattern.Lexeme
import ResumableParsing.Pattern.Library

namespace ResumableParsing

/-! ## Flags -/

/-- The flags that hold at a place in a pattern. -/
structure Flags where
  /-- Case does not matter. -/
  ignoreCase : Bool
  /-- A dot also stands for a line feed. -/
  dotAll : Bool
  /-- The signs `^` and `$` are about lines. -/
  multiLine : Bool
  deriving DecidableEq

/-- The flags at the beginning of a pattern. -/
def Flags.none : Flags := ⟨false, false, false⟩

/-- Set or clear one flag. -/
def Flags.change (f : Flags) : Flag × Bool → Flags
  | (.ignoreCase, b) => { f with ignoreCase := b }
  | (.dotAll, b) => { f with dotAll := b }
  | (.multiLine, b) => { f with multiLine := b }
  | (.lazy, _) => f

/-- Set and clear flags in order. -/
def Flags.changeAll (f : Flags) (changes : FlagChanges) : Flags := changes.foldl Flags.change f

/-! ## Classes in brackets -/

/-- The class that an operator makes of two classes. -/
def SetOperator.apply : SetOperator → CharClass → CharClass → CharClass
  | intersection, a, b => .both a b
  | difference, a, b => .both a (.complement b)
  | symmetricDifference, a, b => .union (.both a (.complement b)) (.both b (.complement a))

/-- The class of what is written in brackets.  If case does not matter, then what stands in brackets
and what an operator is applied to is folded, a negated class before it is negated. -/
def BracketSet.toClass (ignoringCase : Bool) : BracketSet → CharClass
  | members k => k
  | union a b => .union (a.toClass ignoringCase) (b.toClass ignoringCase)
  | enclosed negated a => ((a.toClass ignoringCase).foldedIf ignoringCase).negatedIf negated
  | combined op a b =>
    op.apply ((a.toClass ignoringCase).foldedIf ignoringCase)
      ((b.toClass ignoringCase).foldedIf ignoringCase)

/-- A class in brackets that is being read. -/
structure OpenClass where
  /-- Whether the class is negated. -/
  negated : Bool
  /-- What stands before the last operator, and that operator. -/
  operand : Option (Nested BracketSet × SetOperator)
  /-- The members since the last operator, the last of them first. -/
  members : List (Nested BracketSet)

namespace OpenClass

/-- A class of which only the first members have been read. -/
def start (negated : Bool) (first : List CharClass) : OpenClass :=
  ⟨negated, none, (first.map fun k => ⟨.members k, 0⟩).reverse⟩

/-- What stands behind the last operator. -/
def lastOperand (o : OpenClass) : Nested BracketSet where
  value := (o.members.map Nested.value).foldl .union (.members .none)
  depth := depthOfParts (o.members.map Nested.depth)

/-- What has been read of the class. -/
def contents (o : OpenClass) : Nested BracketSet :=
  match o.operand with
  | none => o.lastOperand
  | some (a, op) =>
    ⟨.combined op a.value o.lastOperand.value, max a.depth o.lastOperand.depth + 1⟩

/-- The class, once its closing bracket has been read. -/
def close (o : OpenClass) : Nested BracketSet :=
  ⟨.enclosed o.negated o.contents.value, o.contents.depth + 1⟩

/-- Add members to a class. -/
def push (o : OpenClass) (a : Nested BracketSet) : OpenClass := { o with members := a :: o.members }

/-- Apply an operator to what has been read of a class and what follows. -/
def operate (o : OpenClass) (op : SetOperator) : OpenClass :=
  { o with operand := some (o.contents, op), members := [] }

end OpenClass

/-- Read the rest of the lexemes of a class, in an open class and the classes around it. -/
def readClass : List BracketLexeme → OpenClass → List OpenClass → Option (Nested BracketSet)
  | [], o, [] => some o.close
  | [], _, _ :: _ => none
  | .opening negated first :: rest, o, outer => readClass rest (.start negated first) (o :: outer)
  | .closing :: _, _, [] => none
  | .closing :: rest, o, parent :: outer => readClass rest (parent.push o.close) outer
  | .operator op :: rest, o, outer => readClass rest (o.operate op) outer
  | .members a :: rest, o, outer => readClass rest (o.push ⟨a, 0⟩) outer

/-! ## Open groups -/

/-- A group that is being read. -/
structure Group where
  /-- The flags that hold from here on. -/
  flags : Flags
  /-- The alternatives before the last bar, the last of them first. -/
  alternatives : List (Nested Expression)
  /-- The pieces since the last bar, the last of them first; a setting of flags is no expression. -/
  pieces : List (Nested (Option Expression))

/-- A group of which nothing has been read. -/
def Group.start (flags : Flags) : Group := ⟨flags, [], []⟩

/-- The alternative since the last bar. -/
def Group.lastAlternative (g : Group) : Nested Expression where
  value := .appendAll (g.pieces.reverse.filterMap Nested.value)
  depth := depthOfParts (g.pieces.reverse.map Nested.depth)

/-- The expression of a group that has been read. -/
def Group.expression (g : Group) : Nested Expression :=
  let alternatives := (g.lastAlternative :: g.alternatives).reverse
  ⟨.eitherAll (alternatives.map Nested.value), depthOfParts (alternatives.map Nested.depth)⟩

/-- Add a piece to a group. -/
def Group.push (g : Group) (e : Nested Expression) : Group :=
  { g with pieces := ⟨some e.value, e.depth⟩ :: g.pieces }

/-- Begin the next alternative of a group. -/
def Group.nextAlternative (g : Group) : Group :=
  { g with alternatives := g.lastAlternative :: g.alternatives, pieces := [] }

/-- Change the flags of a group from here on. -/
def Group.set (g : Group) (changes : FlagChanges) : Group :=
  { g with flags := g.flags.changeAll changes, pieces := ⟨none, 0⟩ :: g.pieces }

/-- Repeat the last piece of a group, if it is an expression. -/
def Group.repeatLast (g : Group) (min : Nat) (max : Option Nat) : Option Group :=
  match g.pieces with
  | ⟨some e, depth⟩ :: rest =>
    some { g with pieces := ⟨some (.times e min max), depth + 1⟩ :: rest }
  | _ => none

/-- Add a group that has been read to the group around it. -/
def Group.enclose (parent g : Group) : Group :=
  parent.push ⟨g.expression.value, g.expression.depth + 1⟩

/-! ## Reading -/

/-- The class of a dot. -/
def dotClass (f : Flags) : CharClass := .complement (if f.dotAll then .none else .singleton '\n')

/-- The expression of a lexeme that is a piece by itself. -/
def Lexeme.piece? (f : Flags) : Lexeme → Option (Nested Expression)
  | character c => some ⟨.oneOf ((CharClass.singleton c).foldedIf f.ignoreCase), 0⟩
  | dot => some ⟨.oneOf (dotClass f), 0⟩
  | class_ k => some ⟨.oneOf k, 0⟩
  | bracket negated first inside =>
    (readClass inside (.start negated first) []).map fun a =>
      ⟨.oneOf (a.value.toClass f.ignoreCase), a.depth⟩
  | caret => some ⟨.assert (if f.multiLine then .lineStart else .textStart), 0⟩
  | dollar => some ⟨.assert (if f.multiLine then .lineEnd else .textEnd), 0⟩
  | assert a => some ⟨.assert a, 0⟩
  | _ => none

/-- What a lexeme makes of the group that is being read and of the groups around it. -/
def Lexeme.step : Lexeme → Group → List Group → Option (Group × List Group)
  | bar, g, outer => some (g.nextAlternative, outer)
  | opening changes, g, outer => some (Group.start (g.flags.changeAll changes), g :: outer)
  | closing, _, [] => none
  | closing, g, parent :: outer => some (parent.enclose g, outer)
  | setting changes, g, outer => some (g.set changes, outer)
  | times min max, g, outer => (g.repeatLast min max).map fun g => (g, outer)
  | l, g, outer => (l.piece? g.flags).map fun e => (g.push e, outer)

/-- Read the rest of the lexemes, in a group and the groups around it. -/
def readGroup : List Lexeme → Group → List Group → Option (Nested Expression)
  | [], g, [] => some g.expression
  | [], _, _ :: _ => none
  | l :: rest, g, outer => (l.step g outer).bind fun (g, outer) => readGroup rest g outer

/-- Read a pattern; an ill-formed one has no expression. -/
def Expression.read? (source : List Char) : Option (Nested Expression) :=
  (lexemes source).bind fun ls => readGroup ls (Group.start .none) []

/-! ## The library -/

/-- Read an expression, unless its parts are nested too deeply. -/
def Expression.compile (source : List Char) : Except Refusal (Nested Expression) :=
  match Expression.read? source with
  | some e => if e.depth ≤ nestLimit then .ok e else .error .illFormed
  | none => .error .illFormed

/-- The library that reads and matches expressions as they are described here.  It leaves out
classes of characters by their Unicode properties, names of groups and of conditions, and comments,
and it has no limit for the size of an expression. -/
def RegexLibrary.standard : RegexLibrary where
  Compiled := Nested Expression
  compile := Expression.compile
  isMatch e text := e.value.occursIn text

/-- Read a pattern that is to match whole texts. -/
def Pattern.read? (source : String) : Option (Pattern .standard) :=
  (Pattern.compile .standard source).toOption

end ResumableParsing
