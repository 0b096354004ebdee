import Backtrack.Failure

/-!
# Cursor/Basic — a place in a sequence of symbols

    0 ── consumed ──▸ pos ── still to come ──▸ end

A cursor answers where it is and whether anything is left, looks at the next symbol, takes it, and
steps back over symbols it took.  Parsers are written against these five operations alone, so they
run on a cursor over loaded data, over a file that is read as they go, or over one that misbehaves
on purpose.

An operation that fails still returns a cursor: what a failing step does to the cursor is part of
what it means.  Looking returns one as well, so that a cursor may keep count of how it was used.
-/

namespace Backtrack

/-- **A cursor of type `σ` over symbols of type `τ`.** -/
class Cursor (σ : Type) (τ : outParam Type) where
  /-- Whether no symbol is left. -/
  atEnd : σ → Bool
  /-- The number of symbols consumed so far. -/
  pos : σ → Nat
  /-- The next symbol, left where it is. -/
  peek : σ → Except Failure τ × σ
  /-- The next symbol, consumed. -/
  next : σ → Except Failure τ × σ
  /-- Returns over the last `n` symbols. -/
  back : Nat → σ → Except Failure Unit × σ

namespace Cursor

/-! ## How the shared operations fail -/

/-- Looking where nothing is left. -/
def peekPastEnd (pos : Nat) : Failure := .parse ⟨"cannot peek after end of input", pos⟩

/-- Taking where nothing is left. -/
def nextPastEnd (pos : Nat) : Failure := .parse ⟨"cannot get after end of input", pos⟩

/-- Stepping back further than the cursor has come. -/
def backPastStart (n pos : Nat) : Failure :=
  .parse ⟨s!"stepping back {n} would move before the start of input", pos⟩

end Cursor

end Backtrack
