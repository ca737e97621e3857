/-
# The lexemes of patterns

The written form of a pattern is cut into lexemes before it is read: characters and escapes, classes
in brackets, conditions, bars, the brackets of groups, settings of flags, and repetitions.  A class
in brackets has lexemes of its own, since classes may stand in classes.  Whatever is not a lexeme
makes the pattern ill-formed.
-/
import ResumableParsing.Pattern.Expression

namespace ResumableParsing

/-! ## What the lexemes are -/

/-- The settings that a pattern may change. -/
inductive Flag where
  /-- Case does not matter. -/
  | ignoreCase
  /-- A dot also stands for a line feed. -/
  | dotAll
  /-- Lines, and not only the text, begin and end at `^` and `$`. -/
  | multiLine
  /-- Repetitions take as little as they can, which does not change what is matched. -/
  | lazy
  deriving DecidableEq

/-- Flags that are to be set or cleared. -/
abbrev FlagChanges := List (Flag × Bool)

/-- The operators between the sets of a class in brackets. -/
inductive SetOperator where
  /-- What both sets hold. -/
  | intersection
  /-- What the first set holds and the second does not. -/
  | difference
  /-- What one of the sets holds and the other does not. -/
  | symmetricDifference

/-- A set of characters as it is written in brackets.  What it holds depends on whether case
matters, which is not known where it is written. -/
inductive BracketSet where
  /-- The characters of a class. -/
  | members (k : CharClass)
  /-- The characters of either set. -/
  | union (a b : BracketSet)
  /-- A set in brackets of its own, or what is not in it. -/
  | enclosed (negated : Bool) (a : BracketSet)
  /-- What an operator makes of two sets. -/
  | combined (op : SetOperator) (a b : BracketSet)

/-- One lexeme of a class in brackets. -/
inductive BracketLexeme where
  /-- An opening bracket, with the members that stand for themselves only behind it. -/
  | opening (negated : Bool) (first : List CharClass)
  /-- A closing bracket. -/
  | closing
  /-- An operator between two sets. -/
  | operator (op : SetOperator)
  /-- Members of the class. -/
  | members (a : BracketSet)

/-- One lexeme of a pattern. -/
inductive Lexeme where
  /-- A character that stands for itself. -/
  | character (c : Char)
  /-- A dot. -/
  | dot
  /-- A class named by an escape. -/
  | class_ (k : CharClass)
  /-- A class in brackets: whether it is negated, its first members, and the lexemes between them
  and its closing bracket. -/
  | bracket (negated : Bool) (first : List CharClass) (inside : List BracketLexeme)
  /-- The sign `^`. -/
  | caret
  /-- The sign `$`. -/
  | dollar
  /-- Another condition on a position. -/
  | assert (a : Assertion)
  /-- A bar between alternatives. -/
  | bar
  /-- The beginning of a group, with the flags that it changes inside. -/
  | opening (changes : FlagChanges)
  /-- The end of a group. -/
  | closing
  /-- A change of flags up to the end of the group. -/
  | setting (changes : FlagChanges)
  /-- A repetition of what stands before. -/
  | times (min : Nat) (max : Option Nat)

/-! ## Escapes -/

/-- What a character means by itself behind a backslash. -/
def escapeLexeme (c : Char) : Option Lexeme :=
  match c with
  | 'd' => some (.class_ .digit)
  | 'D' => some (.class_ (.complement .digit))
  | 's' => some (.class_ .blank)
  | 'S' => some (.class_ (.complement .blank))
  | 'w' => some (.class_ .word)
  | 'W' => some (.class_ (.complement .word))
  | 'A' => some (.assert .textStart)
  | 'z' => some (.assert .textEnd)
  | 'b' => some (.assert .wordBoundary)
  | 'B' => some (.assert .noWordBoundary)
  | '<' => some (.assert .wordStart)
  | '>' => some (.assert .wordEnd)
  | 'n' => some (.character '\n')
  | 't' => some (.character '\t')
  | 'r' => some (.character '\r')
  | 'f' => some (.character '\x0c')
  | 'v' => some (.character '\x0b')
  | 'a' => some (.character '\x07')
  | c => if c.toNat < 128 && !c.isAlphanum then some (.character c) else none

/-- Whether a character is a hexadecimal digit. -/
def isHexDigit (c : Char) : Bool :=
  c.isDigit || ('a' ≤ c && c ≤ 'f') || ('A' ≤ c && c ≤ 'F')

/-- The value of a hexadecimal digit. -/
def hexDigitValue (c : Char) : Nat :=
  if c.isDigit then c.toNat - '0'.toNat else (c.toNat - 'A'.toNat) % 32 + 10

/-- The character whose code point is written in hexadecimal digits, if there is one. -/
def codePoint (digits : List Char) : Option Lexeme :=
  let n := digits.foldl (fun n d => 16 * n + hexDigitValue d) 0
  if n.isValidChar then some (.character (Char.ofNat n)) else none

/-- Read a code point of any number of hexadecimal digits, and the brace behind it. -/
def bracedCodePoint (cs : List Char) : Option (Lexeme × List Char) :=
  match cs.takeWhile isHexDigit, cs.dropWhile isHexDigit with
  | d :: digits, '\x7d' :: rest => (codePoint (d :: digits)).map fun l => (l, rest)
  | _, _ => none

/-- Read a code point of so many hexadecimal digits. -/
def fixedCodePoint (width : Nat) (cs : List Char) : Option (Lexeme × List Char) :=
  if width ≤ (cs.takeWhile isHexDigit).length then
    (codePoint (cs.take width)).map fun l => (l, cs.drop width)
  else none

/-- Read a code point of so many hexadecimal digits, or of any number of them in braces. -/
def hexEscape (width : Nat) : List Char → Option (Lexeme × List Char)
  | '\x7b' :: cs => bracedCodePoint cs
  | cs => fixedCodePoint width cs

/-- Read what stands behind a backslash. -/
def patternEscape : List Char → Option (Lexeme × List Char)
  | [] => none
  | 'x' :: cs => hexEscape 2 cs
  | 'u' :: cs => hexEscape 4 cs
  | 'U' :: cs => hexEscape 8 cs
  | c :: cs => (escapeLexeme c).map fun l => (l, cs)

/-! ## Classes in brackets -/

/-- One end of a range, or a class that stands in brackets. -/
inductive BracketItem where
  /-- A character. -/
  | character (c : Char)
  /-- A class. -/
  | class_ (k : CharClass)

/-- The class of an item. -/
def BracketItem.toClass : BracketItem → CharClass
  | character c => .singleton c
  | class_ k => k

/-- The item that a lexeme stands for in brackets. -/
def Lexeme.bracketItem? : Lexeme → Option BracketItem
  | character c => some (.character c)
  | class_ k => some (.class_ k)
  | _ => none

/-- Read one item in brackets. -/
def bracketItem : List Char → Option (BracketItem × List Char)
  | [] => none
  | '\\' :: cs =>
    (patternEscape cs).bind fun (l, rest) => l.bracketItem?.map fun item => (item, rest)
  | c :: cs => some (.character c, cs)

/-- The range between two items, if they are characters in order. -/
def rangeClass : BracketItem → BracketItem → Option CharClass
  | .character lo, .character hi => if lo.toNat ≤ hi.toNat then some (.range lo hi) else none
  | _, _ => none

/-- Read what stands behind an item.  A hyphen that neither another hyphen nor the end of the class
follows makes the item the beginning of a range. -/
def bracketRange (lo : BracketItem) : List Char → Option (CharClass × List Char)
  | ['-'] => none
  | '-' :: c :: cs =>
    if c = ']' ∨ c = '-' then some (lo.toClass, '-' :: c :: cs)
    else (bracketItem (c :: cs)).bind fun (hi, rest) => (rangeClass lo hi).map fun k => (k, rest)
  | cs => some (lo.toClass, cs)

/-- Read an item in brackets or a range. -/
def bracketMembers (cs : List Char) : Option (CharClass × List Char) :=
  (bracketItem cs).bind fun (item, rest) => bracketRange item rest

/-- The ranges of a class of ASCII characters that is given by its name. -/
def asciiRanges (name : String) : Option (List (Char × Char)) :=
  match name with
  | "alnum" => some [('0', '9'), ('A', 'Z'), ('a', 'z')]
  | "alpha" => some [('A', 'Z'), ('a', 'z')]
  | "ascii" => some [('\x00', '\x7f')]
  | "blank" => some [('\t', '\t'), (' ', ' ')]
  | "cntrl" => some [('\x00', '\x1f'), ('\x7f', '\x7f')]
  | "digit" => some [('0', '9')]
  | "graph" => some [('!', '~')]
  | "lower" => some [('a', 'z')]
  | "print" => some [(' ', '~')]
  | "punct" => some [('!', '/'), (':', '@'), ('[', '\x60'), ('\x7b', '~')]
  | "space" => some [('\t', '\r'), (' ', ' ')]
  | "upper" => some [('A', 'Z')]
  | "word" => some [('0', '9'), ('A', 'Z'), ('_', '_'), ('a', 'z')]
  | "xdigit" => some [('0', '9'), ('A', 'F'), ('a', 'f')]
  | _ => none

/-- Whether a class is negated, and what is left. -/
def bracketSign : List Char → Bool × List Char
  | '^' :: cs => (true, cs)
  | cs => (false, cs)

/-- Read the name of a class between colons, as far as it is one, behind an opening bracket. -/
def namedClass : List Char → Option (BracketLexeme × List Char)
  | ':' :: cs =>
    let (negated, cs) := bracketSign cs
    match asciiRanges (String.ofList (cs.takeWhile Char.isLower)), cs.dropWhile Char.isLower with
    | some ranges, ':' :: ']' :: rest =>
      let k := CharClass.unions (ranges.map fun r => .range r.1 r.2)
      some (.members (.enclosed negated (.members k)), rest)
    | _, _ => none
  | _ => none

/-- The members at the beginning of a class that stand for themselves, and what is left: any number
of hyphens, or else a closing bracket. -/
def firstMembers (cs : List Char) : List CharClass × List Char :=
  match (cs.takeWhile (· = '-')).map CharClass.singleton, cs.dropWhile (· = '-') with
  | [], ']' :: rest => ([CharClass.singleton ']'], rest)
  | ks, rest => (ks, rest)

/-- Read what stands behind an opening bracket. -/
def bracketOpening (cs : List Char) : BracketLexeme × List Char :=
  let (negated, cs) := bracketSign cs
  let (first, cs) := firstMembers cs
  (.opening negated first, cs)

/-- The operator that a character stands for if it is written twice. -/
def setOperator : Char → Option SetOperator
  | '&' => some .intersection
  | '-' => some .difference
  | '~' => some .symmetricDifference
  | _ => none

/-- Read an operator of which the first character is given. -/
def doubledOperator (c : Char) : List Char → Option (BracketLexeme × List Char)
  | [] => none
  | d :: cs => if d = c then (setOperator c).map fun op => (.operator op, cs) else none

/-- Read one lexeme of a class in brackets. -/
def bracketLexeme : List Char → Option (BracketLexeme × List Char)
  | [] => none
  | ']' :: cs => some (.closing, cs)
  | '[' :: cs => (namedClass cs).or (some (bracketOpening cs))
  | c :: cs =>
    (doubledOperator c cs).or
      ((bracketMembers (c :: cs)).map fun (k, rest) => (.members (.members k), rest))

/-- How many brackets are open inside of the class behind a lexeme; behind the one that closes the
class there is no such number. -/
def BracketLexeme.openAfter : BracketLexeme → Nat → Option Nat
  | closing, 0 => none
  | closing, n + 1 => some n
  | opening _ _, n => some (n + 1)
  | _, n => some n

/-- Read the lexemes of a class up to its closing bracket, at most as many as given. -/
def bracketLexemes : Nat → Nat → List Char → Option (List BracketLexeme × List Char)
  | 0, _, _ => none
  | k + 1, open_, cs =>
    (bracketLexeme cs).bind fun (l, rest) =>
      (l.openAfter open_).elim (some ([], rest)) fun open_ =>
        (bracketLexemes k open_ rest).map fun (ls, rest) => (l :: ls, rest)

/-- Read a class behind its opening bracket. -/
def bracket (cs : List Char) : Option (Lexeme × List Char) :=
  let (negated, cs) := bracketSign cs
  let (first, cs) := firstMembers cs
  (bracketLexemes (cs.length + 1) 0 cs).map fun (ls, rest) => (.bracket negated first ls, rest)

/-! ## Groups and flags -/

/-- The flag named by a letter. -/
def flagNamed : Char → Option Flag
  | 'i' => some .ignoreCase
  | 's' => some .dotAll
  | 'm' => some .multiLine
  | 'U' => some .lazy
  | _ => none

/-- Read the flags of a group up to the colon or the closing parenthesis: letters without
repetition, behind a hyphen those to be cleared, of which there must be one. -/
def flags (value : Bool) (seen : FlagChanges) : List Char → Option (Lexeme × List Char)
  | [] => none
  | ':' :: rest => if value || seen.any (!·.2) then some (.opening seen, rest) else none
  | ')' :: rest =>
    if seen ≠ [] ∧ (value || seen.any (!·.2)) then some (.setting seen, rest) else none
  | '-' :: rest => if value then flags false seen rest else none
  | c :: rest =>
    match flagNamed c with
    | none => none
    | some f => if seen.any (·.1 = f) then none else flags value (seen ++ [(f, value)]) rest

/-! ## Repetitions -/

/-- The greatest count that a repetition may name. -/
def greatestCount : Nat := 4294967295

/-- Read a count, which may stand between blanks. -/
def count (cs : List Char) : Option (Nat × List Char) :=
  let cs := cs.dropWhile isBlank
  let digits := cs.takeWhile Char.isDigit
  let n := digits.foldl (fun n d => 10 * n + (d.toNat - '0'.toNat)) 0
  if digits = [] ∨ greatestCount < n then none
  else some (n, (cs.dropWhile Char.isDigit).dropWhile isBlank)

/-- Read the brace behind the greater count of a repetition. -/
def countsEnd (min max : Nat) : List Char → Option (Lexeme × List Char)
  | '\x7d' :: rest => if min ≤ max then some (.times min (some max), rest) else none
  | _ => none

/-- Read what stands behind the comma that follows the first count of a repetition. -/
def countsFrom (min : Nat) : List Char → Option (Lexeme × List Char)
  | '\x7d' :: rest => some (.times min none, rest)
  | cs => (count cs).bind fun (max, rest) => countsEnd min max rest

/-- Read the counts of a repetition behind the opening brace. -/
def counts (cs : List Char) : Option (Lexeme × List Char) :=
  (count cs).bind fun
    | (n, '\x7d' :: rest) => some (.times n (some n), rest)
    | (n, ',' :: rest) => countsFrom n rest
    | _ => none

/-- A question mark behind a repetition asks for as few as possible, which changes nothing here. -/
def withoutLazyMark : List Char → List Char
  | '?' :: rest => rest
  | cs => cs

/-! ## Lexemes -/

/-- Read the lexeme at the beginning of a text. -/
def lexeme : List Char → Option (Lexeme × List Char)
  | [] => none
  | '\\' :: rest => patternEscape rest
  | '(' :: '?' :: rest => flags true [] rest
  | '(' :: rest => some (.opening [], rest)
  | ')' :: rest => some (.closing, rest)
  | '|' :: rest => some (.bar, rest)
  | '[' :: rest => bracket rest
  | '.' :: rest => some (.dot, rest)
  | '^' :: rest => some (.caret, rest)
  | '$' :: rest => some (.dollar, rest)
  | '*' :: rest => some (.times 0 none, withoutLazyMark rest)
  | '+' :: rest => some (.times 1 none, withoutLazyMark rest)
  | '?' :: rest => some (.times 0 (some 1), withoutLazyMark rest)
  | '\x7b' :: rest => (counts rest).map fun (l, rest) => (l, withoutLazyMark rest)
  | c :: rest => some (.character c, rest)

/-- Cut a text into at most the given number of lexemes. -/
def lexemesWithin : Nat → List Char → Option (List Lexeme)
  | _, [] => some []
  | 0, _ => none
  | n + 1, cs =>
    match lexeme cs with
    | none => none
    | some (l, rest) => (lexemesWithin n rest).map (l :: ·)

/-- Cut a text into lexemes; each takes at least one character. -/
def lexemes (cs : List Char) : Option (List Lexeme) := lexemesWithin cs.length cs

end ResumableParsing
