/-
# Sets of code points as sorted intervals

A property of characters is given by the list of intervals of code points that have it.  The
intervals are sorted and apart from each other, so that a search may stop at the first interval
that begins beyond the code point it looks for.
-/

namespace ResumableParsing

/-- Closed intervals of code points, in increasing order. -/
abbrev Intervals := List (Nat × Nat)

/-- Whether a code point lies in one of the intervals. -/
def Intervals.contains : Intervals → Nat → Bool
  | [], _ => false
  | (lo, hi) :: rest, n => if n < lo then false else if n ≤ hi then true else contains rest n

end ResumableParsing
