import Backtrack.Cursor.Basic

/-!
# Cursor/Rewind — returning to a position

A run that came forward is undone by one step back.  A run that stepped back below its own start is
undone by taking the symbols again, one by one.  A cursor that refuses either way cannot be trusted:
the refusal, recoverable by itself, becomes the fatal `restore`.
-/

namespace Backtrack.Cursor

variable {σ τ : Type} [Cursor σ τ]

/-- Takes `k` symbols and drops them, up to the first failure. -/
def skip : Nat → σ → Except Failure Unit × σ
  | 0, s => (.ok (), s)
  | k + 1, s =>
    match next s with
    | (.ok _, s') => skip k s'
    | (.error f, s') => (.error f, s')

/-- Moves to `target`, back in one step or forward symbol by symbol. -/
def moveTo (target : Nat) (s : σ) : Except Failure Unit × σ :=
  if target ≤ pos s then back (pos s - target) s else skip (target - pos s) s

/-- A move that must not fail: a refusal is fatal. -/
def restoring (target : Nat) : Failure → Failure
  | .parse e => .stream (.restore target e)
  | .stream e => .stream e

/-- **Returns to `target`, a position the cursor has been at before.** -/
def rewind (target : Nat) (s : σ) : Except Failure Unit × σ :=
  match moveTo target s with
  | (.ok _, s') => (.ok (), s')
  | (.error f, s') => (.error (restoring target f), s')

end Backtrack.Cursor
