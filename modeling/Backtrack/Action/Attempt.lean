import Backtrack.Action.Basic

/-!
# Action/Attempt — undoing what did not work out

An attempt remembers where it started.  If the action fails recoverably, the cursor is put back
there and the failure is told as one about the start.  A value or a fatal failure passes as it is.
-/

namespace Backtrack.Action

variable {σ τ α : Type} [Cursor σ τ]

/-- Returns to `target`; a refusal is fatal. -/
def rewind (target : Nat) : Action σ Unit := ofOp (Cursor.rewind target)

/-- **Undoes an action that fails recoverably.** -/
def attempt (p : Action σ α) : Action σ α := fun s =>
  let start := Cursor.pos s
  (p.recover fun e => (rewind start).bind fun _ => fail (.parse (e.relocate start))) s

/-- An attempt whose failure is a value. -/
def optional (p : Action σ α) : Action σ (Option α) :=
  ((attempt p).map some).recover fun _ => pure none

/-- An attempt that is undone even if it works out. -/
def lookAhead (p : Action σ α) : Action σ α := fun s =>
  let start := Cursor.pos s
  ((attempt p).bind fun a => (rewind start).map fun _ => a) s

end Backtrack.Action
