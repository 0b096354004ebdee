import Backtrack.Cursor.Basic

/-!
# Cursor/List — a cursor over loaded data, as a zipper

    behind (nearest first) ◂── cursor ──▸ ahead

The symbols passed and the symbols to come, each with the nearest first: taking a symbol moves the
head of one list onto the other, and stepping back moves it home.
-/

namespace Backtrack

/-- **A place between two lists of symbols**, with the number of symbols behind it kept at hand. -/
structure ListCursor (α : Type) where
  behind : List α
  ahead : List α
  pos : Nat
  pos_eq : pos = behind.length

namespace ListCursor

variable {α : Type}

/-- A cursor at the first symbol. -/
def ofList (items : List α) : ListCursor α := ⟨[], items, 0, rfl⟩

/-- All symbols. -/
def toList (c : ListCursor α) : List α := c.behind.reverse ++ c.ahead

/-- The symbols still to come. -/
def remaining (c : ListCursor α) : List α := c.ahead

/-! ## The five operations -/

/-- Looks at the nearest symbol ahead. -/
def peek (c : ListCursor α) : Except Failure α :=
  match c.ahead with
  | [] => .error (Cursor.peekPastEnd c.pos)
  | a :: _ => .ok a

/-- Moves the nearest symbol ahead behind the cursor. -/
def next (c : ListCursor α) : Except Failure α × ListCursor α :=
  match c with
  | ⟨behind, [], pos, h⟩ => (.error (Cursor.nextPastEnd pos), ⟨behind, [], pos, h⟩)
  | ⟨behind, a :: ahead, pos, h⟩ => (.ok a, ⟨a :: behind, ahead, pos + 1, by simp [h]⟩)

/-- Moves the nearest `n` symbols behind the cursor ahead of it, if there are as many. -/
def back (n : Nat) (c : ListCursor α) : Except Failure Unit × ListCursor α :=
  if n ≤ c.pos then
    (.ok (), ⟨c.behind.drop n, (c.behind.take n).reverse ++ c.ahead, c.pos - n,
      by simp [c.pos_eq]⟩)
  else (.error (Cursor.backPastStart n c.pos), c)

/-- Taking leaves the data alone. -/
@[simp] theorem toList_next (c : ListCursor α) : c.next.2.toList = c.toList := by
  obtain ⟨behind, ahead, pos, h⟩ := c
  cases ahead <;> simp [next, toList]

/-- Stepping back leaves the data alone. -/
@[simp] theorem toList_back (n : Nat) (c : ListCursor α) : (c.back n).2.toList = c.toList := by
  unfold back
  split
  · have h : (c.behind.drop n).reverse ++ (c.behind.take n).reverse = c.behind.reverse := by
      rw [← List.reverse_append, List.take_append_drop]
    simp [toList, ← List.append_assoc, h]
  · rfl

instance : Cursor (ListCursor α) α where
  atEnd c := c.ahead.isEmpty
  pos := ListCursor.pos
  peek c := (c.peek, c)
  next := next
  back := back

end ListCursor

end Backtrack
