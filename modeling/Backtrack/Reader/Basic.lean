import Backtrack.Cursor.Basic
import Backtrack.Reader.Config
import Backtrack.Source

/-!
# Reader/Basic — a cursor that loads its bytes as it goes

    forgotten ──▸ base ── consumed, kept ──▸ pos ── unread ──▸ loadedEnd ── in the source ──▸

**One byte ahead.**  Unless the source has ended, at least one unread byte is loaded.  So whether
anything is left, and what comes next, is known without touching the source; only taking the last
loaded byte refills the window.

**A bounded past.**  A refill forgets consumed bytes beyond the last `maxRetained`, counted from the
position at that moment.  Stepping back into what was forgotten is refused.

**A failing refill changes nothing** that can be seen at the cursor: the byte is not taken, and the
next attempt to take it asks the source again.
-/

namespace Backtrack

/-- **A cursor over a source, through a window.** -/
structure Reader where
  source : Source
  config : ReaderConfig
  /-- The loaded bytes that are still kept; the first stands at position `base`. -/
  window : Array UInt8
  base : Nat
  pos : Nat
  /-- Whether the source has answered with nothing. -/
  exhausted : Bool

namespace Reader

/-- The position after the last loaded byte. -/
def loadedEnd (r : Reader) : Nat := r.base + r.window.size

/-- The earliest position that can still be returned to. -/
def windowStart (r : Reader) : Nat := r.base

/-! ## Loading and forgetting -/

/-- Forgets consumed bytes beyond those to be kept. -/
def trim (r : Reader) : Reader :=
  match r.config.maxRetained with
  | none => r
  | some limit =>
    if limit < r.pos - r.base then
      let excess := r.pos - r.base - limit
      { r with window := r.window.extract excess r.window.size, base := r.base + excess }
    else r

/-- Loads one more chunk behind the window.  A failing source leaves the window as it is.  There is
always memory for the chunk; that it runs out is left out. -/
def refill (r : Reader) : Except StreamError Unit × Reader :=
  match r.source.fetch r.config.chunkSize with
  | (.error e, source) => (.error (.read r.loadedEnd e), { r with source })
  | (.ok bytes, source) =>
    let r' := { r with source, window := r.window ++ bytes, exhausted := bytes.isEmpty }
    (.ok (), r'.trim)

/-- Loads one more chunk if no unread byte is left and the source has not ended. -/
def ensureAhead (r : Reader) : Except StreamError Unit × Reader :=
  if r.pos = r.loadedEnd ∧ r.exhausted = false then r.refill else (.ok (), r)

/-! ## Making a reader -/

/-- **A reader at the first byte of a source.**  The first chunk is loaded at once.  A failure hands
the source back as the failed start left it.  A chunk size in range is taken to fit into memory; the
complaint about one that does not is left out. -/
def ofSource (source : Source) (config : ReaderConfig) : Except (StreamError × Source) Reader :=
  match config.fault? with
  | some fault => .error (.invalidConfig fault.reason, source)
  | none =>
    match ensureAhead ⟨source, config, #[], 0, 0, false⟩ with
    | (.error e, r) => .error (e, r.source)
    | (.ok _, r) => .ok r

/-! ## The five operations -/

/-- The byte under the cursor, if one is loaded. -/
def current? (r : Reader) : Option UInt8 := r.window[r.pos - r.base]?

/-- Looks at the byte under the cursor. -/
def peek (r : Reader) : Except Failure UInt8 :=
  match r.current? with
  | none => .error (Cursor.peekPastEnd r.pos)
  | some b => .ok b

/-- Takes the byte under the cursor, and loads more if it was the last one loaded. -/
def next (r : Reader) : Except Failure UInt8 × Reader :=
  match r.current? with
  | none => (.error (Cursor.nextPastEnd r.pos), r)
  | some b =>
    match ensureAhead { r with pos := r.pos + 1 } with
    | (.ok _, r') => (.ok b, r')
    | (.error e, r') => (.error (.stream e), { r' with pos := r.pos })

/-- Stepping back into bytes that are forgotten. -/
def backPastWindow (n : Nat) (r : Reader) : Failure :=
  let message :=
    s!"stepping back {n} would leave the retained window (earliest position {r.base})"
  .parse ⟨message, r.pos⟩

/-- Moves the cursor back within the window. -/
def back (n : Nat) (r : Reader) : Except Failure Unit × Reader :=
  if r.pos < n then (.error (Cursor.backPastStart n r.pos), r)
  else if r.pos - n < r.base then (.error (r.backPastWindow n), r)
  else (.ok (), { r with pos := r.pos - n })

instance : Cursor Reader UInt8 where
  atEnd r := r.loadedEnd ≤ r.pos
  pos := Reader.pos
  peek r := (r.peek, r)
  next := next
  back := back

end Reader

end Backtrack
