import Backtrack.Action.Attempt

/-!
# Action/Repeat — doing it again

Repetitions run on a budget: the number of rounds they may begin.  Each round of `many` is an
attempt, so what the last, failing round consumed is undone.  A `scan` looks before it takes, and so
has nothing to undo.
-/

namespace Backtrack.Action

variable {σ τ α β : Type} [Cursor σ τ]

/-- **Repeats an attempt until it fails**, and lists the values in order. -/
def many : Nat → Action σ α → Action σ (List α)
  | 0, _ => spent
  | n + 1, p => (optional p).bind fun
    | none => pure []
    | some a => (many n p).map (a :: ·)

/-- Repeats an attempt that has to succeed at least once. -/
def manyOne (n : Nat) (p : Action σ α) : Action σ (List α) := fun s =>
  let start := Cursor.pos s
  ((many n p).bind fun
    | [] => fail (.parse ⟨"no parses succeeded", start⟩)
    | a :: as => pure (a :: as)) s

/-- **Takes symbols while they are accepted**, and folds them up from the right. -/
def scan (accepts : τ → Bool) (step : τ → β → β) (init : β) : Nat → Action σ β
  | 0 => spent
  | n + 1 => (ask Cursor.atEnd).bind fun ended =>
    if ended then pure init else
      (ofOp Cursor.peek).bind fun seen =>
        if accepts seen then
          (ofOp Cursor.next).bind fun taken => (scan accepts step init n).map (step taken)
        else pure init

end Backtrack.Action
