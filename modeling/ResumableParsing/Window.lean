/-
# The window of retained items

Of the stream that was fed so far a window is kept: the items from a first offset on that no
completed session has committed.  Items are addressed by their offset in the whole stream.
-/

namespace ResumableParsing

variable {ι : Type}

/-- The retained items and the offset of the first of them. -/
structure Window (ι : Type) where
  /-- The offset of the first retained item, which is also the number of committed items. -/
  start : Nat
  /-- The retained items. -/
  items : List ι

namespace Window

/-- The window of a stream of which nothing has arrived. -/
def empty : Window ι := ⟨0, []⟩

/-- The offset behind the last retained item. -/
def stop (w : Window ι) : Nat := w.start + w.items.length

/-- Add newly arrived items. -/
def append (w : Window ι) (xs : List ι) : Window ι := { w with items := w.items ++ xs }

/-- The item at an offset, if it is retained. -/
def get? (w : Window ι) (offset : Nat) : Option ι :=
  if offset < w.start then none else w.items[offset - w.start]?

/-- The retained items from one offset up to another. -/
def slice (w : Window ι) (lo hi : Nat) : List ι :=
  (w.items.drop (lo - w.start)).take (hi - max lo w.start)

/-- Let go of the retained items before an offset. -/
def discardBefore (w : Window ι) (offset : Nat) : Window ι :=
  let count := min (offset - w.start) w.items.length
  ⟨w.start + count, w.items.drop count⟩

@[simp] theorem start_append (w : Window ι) (xs : List ι) : (w.append xs).start = w.start := rfl

/-- Items that are fed come last. -/
@[simp] theorem items_append (w : Window ι) (xs : List ι) :
    (w.append xs).items = w.items ++ xs := rfl

/-- The window goes on behind them. -/
@[simp] theorem stop_append (w : Window ι) (xs : List ι) :
    (w.append xs).stop = w.stop + xs.length := by
  simp [stop, Nat.add_assoc]

/-- Letting go of items does not move the end of the window. -/
@[simp] theorem stop_discardBefore (w : Window ι) (offset : Nat) :
    (w.discardBefore offset).stop = w.stop := by
  simp only [stop, discardBefore, List.length_drop]
  omega

/-- Inside the window, letting go of the items before an offset makes it the start. -/
theorem start_discardBefore {w : Window ι} {offset : Nat} (lo : w.start ≤ offset)
    (hi : offset ≤ w.stop) : (w.discardBefore offset).start = offset := by
  simp only [stop] at hi
  simp only [discardBefore]
  omega

/-- A slice inside the window has as many items as it spans. -/
theorem length_slice {w : Window ι} {lo hi : Nat} (hlo : w.start ≤ lo) (hhi : hi ≤ w.stop) :
    (w.slice lo hi).length = hi - lo := by
  simp only [stop] at hhi
  simp only [slice, List.length_drop, List.length_take]
  omega

end Window

/-- The limit, if more items are retained than it allows. -/
def exceededLimit (limit : Option Nat) (retained : Nat) : Option Nat :=
  limit.filter fun l => l < retained

end ResumableParsing
