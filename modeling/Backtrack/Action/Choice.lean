import Backtrack.Action.Attempt

/-!
# Action/Choice — the first alternative that does not fail recoverably

Two forms.  `firstOf` walks a list with the start in hand.  `alt` nests each alternative around the
ones after it.  Either way every alternative is an attempt from the same start, and the failure of
all of them is one failure about that start.
-/

namespace Backtrack.Action

variable {σ τ α : Type} [Cursor σ τ]

/-- The failure of all alternatives. -/
def noneMatched (start : Nat) : Action σ α := fail (.parse ⟨"no alternative matched", start⟩)

/-- Walks the alternatives that are left. -/
def firstOfFrom (start : Nat) : List (Action σ α) → Action σ α
  | [] => noneMatched start
  | p :: ps => (attempt p).recover fun _ => firstOfFrom start ps

/-- **Ordered choice from a list.** -/
def firstOf (ps : List (Action σ α)) : Action σ α := fun s => firstOfFrom (Cursor.pos s) ps s

/-- **Ordered choice by nesting.** -/
def alt (ps : List (Action σ α)) : Action σ α := fun s =>
  ps.foldr (fun p rest => (attempt p).recover fun _ => rest) (noneMatched (Cursor.pos s)) s

end Backtrack.Action
