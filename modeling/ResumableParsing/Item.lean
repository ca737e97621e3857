/-
# Items

A parser reads a stream of items.  What the library asks of an item type is a text, by which
patterns and keys see the item, a quoted form, by which messages show it, an order, by which ranges
are tested, and whether it is a character, of which more can be asked.  Characters, strings and
integers are items.
-/
import ResumableParsing.Text.Quoted

namespace ResumableParsing

/-- The types whose values parsers read. -/
class Item (ι : Type) where
  /-- The characters of the item, as a pattern sees them. -/
  text : ι → String
  /-- The item as messages show it. -/
  quoted : ι → String
  /-- Whether the first item is at most the second. -/
  atMost : ι → ι → Bool
  /-- The item as a character, if it is one. -/
  character? : ι → Option Char

/-- Characters are ordered by code point. -/
instance : Item Char where
  text c := c.toString
  quoted := quoteChar
  atMost a b := a.toNat ≤ b.toNat
  character? := some

/-- Strings are ordered lexicographically by code point. -/
instance : Item String where
  text s := s
  quoted := quoteString
  atMost a b := decide (a ≤ b)
  character? _ := none

/-- Integers are shown in decimal and stand without quotation marks. -/
instance : Item Int where
  text n := toString n
  quoted n := toString n
  atMost a b := a ≤ b
  character? _ := none

/-- A list of items in brackets, each in its quoted form. -/
def quotedList {ι : Type} [Item ι] (xs : List ι) : String :=
  "[" ++ ", ".intercalate (xs.map Item.quoted) ++ "]"

/-- Whether an item lies between two others, both included. -/
def Item.isBetween {ι : Type} [Item ι] (lo hi x : ι) : Bool :=
  Item.atMost lo x && Item.atMost x hi

end ResumableParsing
