/-
# Events

What an observer of an engine is told, in the order in which it happens.  The events say how the
cursor moves and what is put out; requests that leave the cursor where it is are not events.
-/

namespace ResumableParsing

/-- A movement of the cursor, or an output. -/
inductive Event (ι ο : Type) where
  /-- The cursor moved behind an item. -/
  | consumed (x : ι)
  /-- The cursor moved back before these items, given in stream order. -/
  | rolledBack (dropped : List ι)
  /-- A session ended with an output, and the items behind the cursor are committed. -/
  | completed (output : ο)

end ResumableParsing
