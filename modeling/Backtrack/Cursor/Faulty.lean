import Backtrack.Cursor.Array

/-!
# Cursor/Faulty — a cursor that fails on purpose

An array cursor whose operations fail at chosen positions or after a chosen number of uses.  It
shows what a parser does when the cursor below it breaks its word: a look that fails where a symbol
is there, a step back that is refused.
-/

namespace Backtrack

/-- **An array cursor with faults to inject.**  A missing budget never runs out. -/
structure FaultyCursor (α : Type) where
  inner : ArrayCursor α
  /-- Whether an injected fault is fatal. -/
  fatal : Bool
  /-- The positions at which looking fails. -/
  peekFaults : List Nat
  /-- How many more symbols may be taken. -/
  nextBudget : Option Nat
  /-- How many more times the cursor may step back. -/
  backBudget : Option Nat

namespace FaultyCursor

variable {α : Type}

/-- An injected fault of the named operation, at the current position. -/
def fault (operation : String) (c : FaultyCursor α) : Failure :=
  let message := s!"injected {operation} fault"
  if c.fatal then .stream (.read c.inner.pos ⟨⟨"Other"⟩, message⟩)
  else .parse ⟨message, c.inner.pos⟩

/-- Looks as the inner cursor does, except at the chosen positions. -/
def peek (c : FaultyCursor α) : Except Failure α :=
  if c.peekFaults.contains c.inner.pos then .error (c.fault "peek") else c.inner.peek

/-- Takes as the inner cursor does while the budget lasts; a failing take is charged too. -/
def next (c : FaultyCursor α) : Except Failure α × FaultyCursor α :=
  match c.nextBudget with
  | some 0 => (.error (c.fault "get"), c)
  | budget =>
    let (result, inner) := c.inner.next
    (result, { c with inner, nextBudget := budget.map (· - 1) })

/-- Steps back as the inner cursor does while the budget lasts; a step of nothing is free. -/
def back (n : Nat) (c : FaultyCursor α) : Except Failure Unit × FaultyCursor α :=
  match n, c.backBudget with
  | 0, _ => (.ok (), c)
  | _ + 1, some 0 => (.error (c.fault "step back"), c)
  | n + 1, budget =>
    let (result, inner) := c.inner.back (n + 1)
    (result, { c with inner, backBudget := budget.map (· - 1) })

instance : Cursor (FaultyCursor α) α where
  atEnd c := Cursor.atEnd c.inner
  pos c := c.inner.pos
  peek c := (c.peek, c)
  next := next
  back := back

end FaultyCursor

end Backtrack
