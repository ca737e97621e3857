/-
# White space

The code points with the property *White_Space*.
-/
import ResumableParsing.Text.Intervals

namespace ResumableParsing

/-- The code points that are white space. -/
def blankIntervals : Intervals :=
  [(0x9, 0xD), (0x20, 0x20), (0x85, 0x85), (0xA0, 0xA0), (0x1680, 0x1680), (0x2000, 0x200A),
   (0x2028, 0x2029), (0x202F, 0x202F), (0x205F, 0x205F), (0x3000, 0x3000)]

/-- A character is blank when the property *White_Space* holds of it. -/
def isBlank (c : Char) : Bool :=
  blankIntervals.contains c.toNat

end ResumableParsing
