/-
# What is documented of the library

The library that compiles patterns is not part of the parser, and no more is known of it than what
its documentation says: how expressions are written, which stretches of a text they match, and when
they are refused.  Only a small part of this matters for patterns that are to match whole texts.
Frames are the expressions that are written with groups, the signs for the two ends of a text,
sequences and bars, with any other expressions in the groups.  What is documented of them, and of
the parentheses of groups, is listed in `Documented`.

An expression may allow comments in itself.  If its last line is one, then a parenthesis behind the
expression is part of the comment, and the expression cannot be enclosed in a group (`Enclosable`).
-/
import ResumableParsing.Pattern.Library

namespace ResumableParsing

namespace RegexLibrary

/-- The expression is well-formed, and a parenthesis behind it closes no group. -/
def Enclosable (lib : RegexLibrary) (source : List Char) : Prop :=
  lib.compile source ≠ .error .illFormed ∧ lib.compile (source ++ [')']) = .error .illFormed

/-- What can be said of compiled expressions. -/
structure Meaning (lib : RegexLibrary) where
  /-- How deep the parts of the expression are nested. -/
  depth : lib.Compiled → Nat
  /-- The names of the groups of the expression. -/
  names : lib.Compiled → List (List Char)
  /-- The expression matches the stretch of the text from the first place to the second. -/
  Spans : lib.Compiled → List Char → Nat → Nat → Prop

end RegexLibrary

variable {lib : RegexLibrary}

/-! ## Frames -/

/-- A piece of a frame. -/
inductive Piece (lib : RegexLibrary) where
  /-- The sign for the beginning of the text. -/
  | textStart
  /-- The sign for the end of the text. -/
  | textEnd
  /-- A group without a name, with the expression in it and what that is compiled to. -/
  | group (source : List Char) (inner : lib.Compiled)

namespace Piece

/-- How a piece is written. -/
def written : Piece lib → List Char
  | textStart => ['\\', 'A']
  | textEnd => ['\\', 'z']
  | group source _ => ['(', '?', ':'] ++ source ++ [')']

/-- How deep a piece is nested. -/
def depth (m : lib.Meaning) : Piece lib → Nat
  | textStart => 0
  | textEnd => 0
  | group _ inner => m.depth inner + 1

/-- The names of the groups in a piece. -/
def names (m : lib.Meaning) : Piece lib → List (List Char)
  | textStart => []
  | textEnd => []
  | group _ inner => m.names inner

/-- The stretches of a text that a piece matches. -/
def Spans (m : lib.Meaning) (text : List Char) : Piece lib → Nat → Nat → Prop
  | textStart, i, j => i = 0 ∧ j = 0
  | textEnd, i, j => i = text.length ∧ j = text.length
  | group _ inner, i, j => m.Spans inner text i j

/-- What is in a group is an expression that may be enclosed in one. -/
def WellFormed : Piece lib → Prop
  | textStart => True
  | textEnd => True
  | group source inner => lib.compile source = .ok inner ∧ lib.Enclosable source

end Piece

/-- How pieces are written one after the other. -/
def sequenceWritten (ps : List (Piece lib)) : List Char := ps.flatMap Piece.written

/-- A stretch for each of the pieces, one after the other. -/
def SequenceSpans (m : lib.Meaning) (text : List Char) : List (Piece lib) → Nat → Nat → Prop
  | [], i, j => i = j ∧ j ≤ text.length
  | p :: ps, i, j => ∃ k, p.Spans m text i k ∧ SequenceSpans m text ps k j

/-- Alternatives, each of them a sequence of pieces. -/
abbrev Frame (lib : RegexLibrary) := List (List (Piece lib))

namespace Frame

/-- How alternatives are written, with bars between them. -/
def written (f : Frame lib) : List Char := ['|'].intercalate (f.map sequenceWritten)

/-- How deep alternatives are nested. -/
def depth (m : lib.Meaning) (f : Frame lib) : Nat :=
  depthOfParts (f.map fun ps => depthOfParts (ps.map (Piece.depth m)))

/-- The names of the groups in the alternatives. -/
def names (m : lib.Meaning) (f : Frame lib) : List (List Char) :=
  f.flatMap fun ps => ps.flatMap (Piece.names m)

/-- The stretches of a text that one of the alternatives matches. -/
def Spans (m : lib.Meaning) (text : List Char) (f : Frame lib) (i j : Nat) : Prop :=
  ∃ ps ∈ f, SequenceSpans m text ps i j

/-- There is an alternative, the pieces are well-formed, and no two groups share a name. -/
structure WellFormed (m : lib.Meaning) (f : Frame lib) : Prop where
  ne_nil : f ≠ []
  pieces : ∀ ps ∈ f, ∀ p ∈ ps, p.WellFormed
  nodup : (f.names m).Nodup

end Frame

/-! ## The documentation -/

namespace RegexLibrary.Meaning

/-- The compiled expression is what a frame describes. -/
structure Describes (m : lib.Meaning) (f : Frame lib) (r : lib.Compiled) : Prop where
  depth : m.depth r = f.depth m
  names : m.names r = f.names m
  spans : ∀ text i j, m.Spans r text i j ↔ f.Spans m text i j

/-- What the documentation of the library says. -/
structure Documented (m : lib.Meaning) : Prop where
  /-- A search finds a match anywhere in the text, if there is one. -/
  search : ∀ r text, lib.isMatch r text = true ↔ ∃ i j, m.Spans r text i j
  /-- A match begins and ends in the text, and does not end before it begins. -/
  within : ∀ {r text i j}, m.Spans r text i j → i ≤ j ∧ j ≤ text.length
  /-- The groups of an expression have different names. -/
  nodup : ∀ {source r}, lib.compile source = .ok r → (m.names r).Nodup
  /-- A frame is compiled to what it describes, unless that is too big: the signs stand for the two
  ends of the text, `(?:exp)` for what `exp` stands for, `xy` for `x` followed by `y`, and `x|y` for
  `x` or `y`. -/
  frames : ∀ f : Frame lib, f.WellFormed m → f.depth m ≤ nestLimit →
    lib.compile f.written = .error .tooBig ∨ ∃ r, lib.compile f.written = .ok r ∧ m.Describes f r
  /-- Parts that are nested too deeply are refused. -/
  nesting : ∀ f : Frame lib, f.WellFormed m → nestLimit < f.depth m →
    lib.compile f.written = .error .illFormed
  /-- A group that is opened must be closed, and there is an expression in it. -/
  opened : ∀ (ps : List (Piece lib)) (rest : List Char), (∀ p ∈ ps, p.WellFormed) →
    lib.compile (sequenceWritten ps ++ '(' :: '?' :: ':' :: rest) ≠ .error .illFormed →
      ∃ inside behind, rest = inside ++ ')' :: behind ∧ lib.Enclosable inside
  /-- A parenthesis must close a group that was opened, whatever stands behind it. -/
  unopened : ∀ (source behind : List Char), lib.Enclosable source →
    lib.compile (source ++ ')' :: behind) = .error .illFormed
  /-- A parenthesis behind a well-formed expression closes no group, unless it is part of a comment,
  which begins with `#` where the flag `x` is set. -/
  comments : ∀ source : List Char, lib.compile source ≠ .error .illFormed →
    ¬ lib.Enclosable source → '#' ∈ source ∧ 'x' ∈ source

end RegexLibrary.Meaning

end ResumableParsing
