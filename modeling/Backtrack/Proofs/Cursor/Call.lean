import Mathlib.Control.Monad.Basic
import Backtrack.Cursor.Basic

/-!
# Proofs/Cursor/Call — a cursor used call by call

A run of a cursor is a list of calls, each answered with a value or a failure.  Whatever comes back,
the next call goes on from the cursor that is left.

    s ──c₁──▸ s₁ ──c₂──▸ s₂ ──c₃──▸ …

What a cursor shows without being moved is its `view`.
-/

namespace Backtrack

/-- **One use of a cursor.** -/
inductive Call where
  | atEnd
  | pos
  | peek
  | next
  | back (n : Nat)
deriving DecidableEq

/-- Returning over the last symbol. -/
def Call.unget : Call := .back 1

/-- What a call that works out answers. -/
inductive Answer (τ : Type) where
  | flag (b : Bool)
  | count (n : Nat)
  | symbol (x : τ)
  | done
deriving DecidableEq

namespace Cursor

variable {σ τ : Type} [Cursor σ τ]

/-- **Makes one call.** -/
def perform (c : Call) (s : σ) : Except Failure (Answer τ) × σ :=
  match c with
  | .atEnd => (.ok (.flag (atEnd s)), s)
  | .pos => (.ok (.count (pos s)), s)
  | .peek => ((peek s).1.map .symbol, (peek s).2)
  | .next => ((next s).1.map .symbol, (next s).2)
  | .back n => ((back n s).1.map fun _ => .done, (back n s).2)

/-- The cursor left by some calls, the failing ones included. -/
def performAll (calls : List Call) (s : σ) : σ := calls.foldl (fun s c => (perform c s).2) s

/-- The symbol a call has taken off the cursor, if it has. -/
def taken? (c : Call) (s : σ) : Option τ :=
  match c with
  | .next => (next s).1.toOption
  | _ => none

/-- **The symbols taken by a run of calls**, in order. -/
def takenAll : List Call → σ → List τ
  | [], _ => []
  | c :: calls, s => (taken? c s).toList ++ takenAll calls (perform c s).2

/-- **What a cursor shows without being moved.** -/
structure View (τ : Type) where
  pos : Nat
  atEnd : Bool
  peek : Except Failure τ
deriving DecidableEq

/-- The view of a cursor. -/
def view (s : σ) : View τ := ⟨pos s, atEnd s, (peek s).1⟩

end Cursor

end Backtrack
