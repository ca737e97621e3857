/-
# Patterns for whole items

A leaf may ask that the whole text of an item matches a regular expression.  Expressions are
compiled and looked for by a library that is not part of the parser.  The parser only puts what was
written between the signs for the beginning and the end of the text, has that compiled, and asks
whether it occurs in the text of an item.
-/

namespace ResumableParsing

/-! ## Libraries of regular expressions -/

/-- Why a written expression is not compiled. -/
inductive Refusal where
  /-- It is not written as expressions are, or its parts are nested too deeply. -/
  | illFormed
  /-- What it would be compiled to is too big. -/
  | tooBig
  deriving DecidableEq

/-- A library of regular expressions. -/
structure RegexLibrary where
  /-- What written expressions are compiled to. -/
  Compiled : Type
  /-- Compile a written expression. -/
  compile : List Char → Except Refusal Compiled
  /-- Whether there is a match anywhere in a text. -/
  isMatch : Compiled → List Char → Bool

/-! ## Nesting -/

/-- Something written, with the depth to which its parts are nested. -/
structure Nested (α : Type) where
  /-- What is written. -/
  value : α
  /-- How many parts there are inside one another. -/
  depth : Nat

/-- How deep parts that stand side by side are nested; a single part makes up the whole by
itself. -/
def depthOfParts (depths : List Nat) : Nat :=
  depths.foldr max 0 + if depths.length ≤ 1 then 0 else 1

/-- How deep the parts of an expression may be nested. -/
def nestLimit : Nat := 250

/-! ## Patterns -/

/-- A pattern that is to match a whole text. -/
structure Pattern (lib : RegexLibrary) where
  /-- The pattern as it was written. -/
  source : String
  /-- What is looked for in a text. -/
  compiled : lib.Compiled

namespace Pattern

variable {lib : RegexLibrary}

/-- The source of a pattern, put between the signs for the beginning and the end of the text. -/
def anchored (source : List Char) : List Char :=
  ['\\', 'A', '(', '?', ':'] ++ source ++ [')', '\\', 'z']

/-- Compile a pattern that is to match whole texts. -/
def compile (lib : RegexLibrary) (source : String) : Except Refusal (Pattern lib) :=
  (lib.compile (anchored source.toList)).map fun r => ⟨source, r⟩

/-- Whether a text matches the pattern. -/
def accepts (p : Pattern lib) (text : String) : Bool := lib.isMatch p.compiled text.toList

/-- What a leaf says that it expects an item to match. -/
def expected (p : Pattern lib) : String := "/" ++ p.source ++ "/"

end Pattern

end ResumableParsing
