import Backtrack.Cursor.Basic

/-!
# Cursor/Array — a cursor over loaded data, as an index

The data never changes, so a copy of the cursor is a second, independent cursor over the same
symbols.  That the index is within the data is part of the type.
-/

namespace Backtrack

/-- **A position in an array of symbols.** -/
structure ArrayCursor (α : Type) where
  items : Array α
  pos : Nat
  pos_le : pos ≤ items.size

namespace ArrayCursor

variable {α : Type}

/-- A cursor at the first symbol. -/
def ofArray (items : Array α) : ArrayCursor α := ⟨items, 0, Nat.zero_le _⟩

/-- A cursor at the first symbol of a list. -/
def ofList (items : List α) : ArrayCursor α := ofArray items.toArray

/-- Total number of symbols, consumed or not. -/
def size (c : ArrayCursor α) : Nat := c.items.size

/-- Whether there are no symbols at all. -/
def isEmpty (c : ArrayCursor α) : Bool := c.items.isEmpty

/-- All symbols. -/
def toList (c : ArrayCursor α) : List α := c.items.toList

/-- The symbols still to come. -/
def remaining (c : ArrayCursor α) : List α := c.items.toList.drop c.pos

/-! ## The five operations -/

/-- Looks at the symbol under the index. -/
def peek (c : ArrayCursor α) : Except Failure α :=
  if h : c.pos < c.items.size then .ok c.items[c.pos] else .error (Cursor.peekPastEnd c.pos)

/-- Takes the symbol under the index and moves on. -/
def next (c : ArrayCursor α) : Except Failure α × ArrayCursor α :=
  if h : c.pos < c.items.size then (.ok c.items[c.pos], ⟨c.items, c.pos + 1, h⟩)
  else (.error (Cursor.nextPastEnd c.pos), c)

/-- Moves the index down, not below zero. -/
def back (n : Nat) (c : ArrayCursor α) : Except Failure Unit × ArrayCursor α :=
  if n ≤ c.pos then (.ok (), ⟨c.items, c.pos - n, Nat.le_trans (Nat.sub_le _ _) c.pos_le⟩)
  else (.error (Cursor.backPastStart n c.pos), c)

/-- Taking leaves the data alone. -/
@[simp] theorem items_next (c : ArrayCursor α) : c.next.2.items = c.items := by
  unfold next
  split <;> rfl

/-- Stepping back leaves the data alone. -/
@[simp] theorem items_back (n : Nat) (c : ArrayCursor α) : (c.back n).2.items = c.items := by
  unfold back
  split <;> rfl

instance : Cursor (ArrayCursor α) α where
  atEnd c := c.pos == c.items.size
  pos := ArrayCursor.pos
  peek c := (c.peek, c)
  next := next
  back := back

end ArrayCursor

end Backtrack
