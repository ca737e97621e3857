/-
# Quoted text

A character or a string is shown between quotation marks so that a reader can tell exactly which
characters it holds: the marks themselves, the backslash and the usual controls are written with a
backslash, and every hidden character by its code point.
-/
import ResumableParsing.Text.Hidden

namespace ResumableParsing

/-- The lower-case hexadecimal digits of a number, without padding. -/
def hexDigits (n : Nat) : List Char := Nat.toDigits 16 n

/-- A character as it is written between two `mark`s. -/
def escape (mark c : Char) : List Char :=
  if c = '\x00' then ['\\', '0']
  else if c = '\t' then ['\\', 't']
  else if c = '\r' then ['\\', 'r']
  else if c = '\n' then ['\\', 'n']
  else if c = '\\' then ['\\', '\\']
  else if c = mark then ['\\', mark]
  else if isHidden c then ['\\', 'u', '\x7b'] ++ hexDigits c.toNat ++ ['\x7d']
  else [c]

/-- A list of characters between two `mark`s. -/
def quoteWith (mark : Char) (cs : List Char) : String :=
  String.ofList (mark :: cs.flatMap (escape mark) ++ [mark])

/-- A character between apostrophes; a quotation mark inside stands for itself. -/
def quoteChar (c : Char) : String := quoteWith '\'' [c]

/-- A string between quotation marks; an apostrophe inside stands for itself. -/
def quoteString (s : String) : String := quoteWith '"' s.toList

end ResumableParsing
