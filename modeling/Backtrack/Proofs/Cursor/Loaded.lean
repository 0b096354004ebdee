import Backtrack.Cursor.Array
import Backtrack.Cursor.List

/-!
# Proofs/Cursor/Loaded — a cursor over loaded data is an index

The least a cursor can be is a list and an index into it.  `peekAt`, `nextAt` and `backFrom` are its
operations; the array cursor and the zipper do exactly that, each in its own layout.  Whatever
agrees with the plain index agrees with both.
-/

namespace Backtrack

namespace Cursor

variable {α : Type}

/-- Looking at the symbol at an index. -/
def peekAt (items : List α) (p : Nat) : Except Failure α :=
  match items[p]? with
  | none => .error (peekPastEnd p)
  | some a => .ok a

/-- Taking the symbol at an index. -/
def nextAt (items : List α) (p : Nat) : Except Failure α × Nat :=
  match items[p]? with
  | none => (.error (nextPastEnd p), p)
  | some a => (.ok a, p + 1)

/-- Stepping back from an index. -/
def backFrom (n p : Nat) : Except Failure Unit × Nat :=
  if n ≤ p then (.ok (), p - n) else (.error (backPastStart n p), p)

end Cursor

namespace ArrayCursor

variable {α : Type} (c : ArrayCursor α)

@[simp] theorem toList_ofList (items : List α) : (ofList items).toList = items := rfl

variable {c} in
/-- There is nothing to the cursor but its data and its position. -/
theorem eq_of_toList_eq {d : ArrayCursor α} (h : c.toList = d.toList) (hpos : c.pos = d.pos) :
    c = d := by
  obtain ⟨items, pos, hle⟩ := c
  obtain ⟨items', pos', hle'⟩ := d
  obtain rfl : items = items' := Array.toList_inj.1 h
  obtain rfl : pos = pos' := hpos
  rfl

theorem toList_getElem? (p : Nat) : c.toList[p]? = c.items[p]? := Array.getElem?_toList

@[simp] theorem toList_next : c.next.2.toList = c.toList := congrArg Array.toList c.items_next

@[simp] theorem toList_back (n : Nat) : (c.back n).2.toList = c.toList :=
  congrArg Array.toList (c.items_back n)

theorem peek_eq_peekAt : c.peek = Cursor.peekAt c.toList c.pos := by
  rw [peek, Cursor.peekAt, toList_getElem?]
  split
  · next h => rw [Array.getElem?_eq_getElem h]
  · next h => rw [Array.getElem?_eq_none (Nat.le_of_not_lt h)]

theorem next_eq_nextAt : (c.next.1, c.next.2.pos) = Cursor.nextAt c.toList c.pos := by
  rw [next, Cursor.nextAt, toList_getElem?]
  split
  · next h => rw [Array.getElem?_eq_getElem h]
  · next h => rw [Array.getElem?_eq_none (Nat.le_of_not_lt h)]

theorem back_eq_backFrom (n : Nat) :
    ((c.back n).1, (c.back n).2.pos) = Cursor.backFrom n c.pos := by
  unfold back Cursor.backFrom
  split <;> rfl

/-- The index never leaves the data, so the end is where nothing is under it. -/
theorem atEnd_iff : Cursor.atEnd c = true ↔ c.toList[c.pos]? = none := by
  have := c.pos_le
  change (c.pos == c.items.size) = true ↔ _
  rw [beq_iff_eq, toList_getElem?, Array.getElem?_eq_none_iff]
  omega

end ArrayCursor

namespace ListCursor

variable {α : Type} (c : ListCursor α)

@[simp] theorem toList_ofList (items : List α) : (ofList items).toList = items := rfl

variable {c} in
/-- There is nothing to the cursor but its data and its position. -/
theorem eq_of_toList_eq {d : ListCursor α} (h : c.toList = d.toList) (hpos : c.pos = d.pos) :
    c = d := by
  obtain ⟨behind, ahead, pos, hlength⟩ := c
  obtain ⟨behind', ahead', pos', hlength'⟩ := d
  obtain rfl : pos = pos' := hpos
  have hsame : behind.reverse.length = behind'.reverse.length := by
    rw [List.length_reverse, List.length_reverse, ← hlength, ← hlength']
  obtain ⟨hbehind, hahead⟩ := List.append_inj h hsame
  obtain rfl : behind = behind' := List.reverse_inj.1 hbehind
  obtain rfl : ahead = ahead' := hahead
  rfl

/-- The symbol at the cursor's position is the nearest one ahead. -/
theorem toList_getElem?_pos : c.toList[c.pos]? = c.ahead.head? := by
  rw [toList, c.pos_eq, List.getElem?_append_right (by simp)]
  simp [List.head?_eq_getElem?]

theorem peek_eq_peekAt : c.peek = Cursor.peekAt c.toList c.pos := by
  rw [peek, Cursor.peekAt, toList_getElem?_pos]
  cases c.ahead <;> rfl

theorem next_eq_nextAt : (c.next.1, c.next.2.pos) = Cursor.nextAt c.toList c.pos := by
  rw [Cursor.nextAt, toList_getElem?_pos]
  obtain ⟨behind, ahead, pos, h⟩ := c
  cases ahead <;> rfl

theorem back_eq_backFrom (n : Nat) :
    ((c.back n).1, (c.back n).2.pos) = Cursor.backFrom n c.pos := by
  unfold back Cursor.backFrom
  split <;> rfl

theorem atEnd_iff : Cursor.atEnd c = true ↔ c.toList[c.pos]? = none := by
  change c.ahead.isEmpty = true ↔ _
  rw [toList_getElem?_pos, List.isEmpty_iff, List.head?_eq_none_iff]

end ListCursor

end Backtrack
