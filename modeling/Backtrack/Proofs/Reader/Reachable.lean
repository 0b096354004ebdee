import Backtrack.Proofs.Cursor.Call
import Backtrack.Proofs.Reader.Invariant

/-!
# Proofs/Reader/Reachable — every reader a run of calls can lead to

A reader is made once and then used call by call, over a source that may answer short, be
interrupted, fail, or end early.  The calls that fail count too.  One call keeps the invariant, so
every reader within reach has it (`Reachable.invariant`), and what the cursor shows can be read off
the window:

    atEnd  ↔  the source has ended and the cursor is at the end of what it handed out
           ↔  there is nothing to look at
-/

namespace Backtrack.Reader

variable {source : Source} {config : ReaderConfig} {r : Reader}

/-- **The readers that calls lead to**, from one made of `source` with `config`. -/
inductive Reachable (source : Source) (config : ReaderConfig) : Reader → Prop where
  | start {r : Reader} (h : ofSource source config = .ok r) : Reachable source config r
  | call {r : Reader} (c : Call) (h : Reachable source config r) :
      Reachable source config (Cursor.perform c r).2

theorem Reachable.performAll (calls : List Call) (h : Reachable source config r) :
    Reachable source config (Cursor.performAll calls r) := by
  induction calls generalizing r with
  | nil => exact h
  | cons c calls ih => exact ih (h.call c)

theorem Invariant.perform (h : Invariant source config r) (c : Call) :
    Invariant source config (Cursor.perform c r).2 := by
  cases c with
  | atEnd => exact h
  | pos => exact h
  | peek => exact h
  | next => exact h.next
  | back n => exact h.back n

/-- **Every reader within reach has the invariant.** -/
theorem Reachable.invariant (h : Reachable source config r) : Invariant source config r := by
  induction h with
  | start h => exact invariant_ofSource h
  | call c _ ih => exact ih.perform c

/-! ## What the cursor shows -/

/-- No byte is under the cursor exactly at the end of the window. -/
theorem Coherent.current?_eq_none_iff (h : Coherent source config r) :
    r.current? = none ↔ r.pos = r.loadedEnd := by
  have := h.base_le_pos
  have := h.pos_le_end
  unfold current? loadedEnd at *
  rw [Array.getElem?_eq_none_iff]
  omega

theorem atEnd_eq_true_iff (r : Reader) : Cursor.atEnd r = true ↔ r.loadedEnd ≤ r.pos :=
  decide_eq_true_iff

/-- Looking fails exactly where no byte is under the cursor. -/
theorem exists_peek_error_iff (r : Reader) :
    (∃ f, (Cursor.peek r).1 = .error f) ↔ r.current? = none := by
  change (∃ f, r.peek = .error f) ↔ _
  rw [peek]
  cases r.current? with
  | none => exact ⟨fun _ => rfl, fun _ => ⟨_, rfl⟩⟩
  | some b => simp

/-- Taking fails *recoverably* exactly there too; a failing source is fatal. -/
theorem exists_next_error_iff (r : Reader) :
    (∃ e, (Cursor.next r).1 = .error (.parse e)) ↔ r.current? = none := by
  change (∃ e, r.next.1 = .error (.parse e)) ↔ _
  have htaken := taken_next r
  generalize r.next = out at htaken
  cases htaken with
  | ended hcur => exact ⟨fun _ => hcur, fun _ => ⟨_, rfl⟩⟩
  | kept hcur => simp [hcur]
  | refilled hcur => simp [hcur]
  | failed hcur => simp [hcur]

/-- The cursor is at the end exactly when the source has ended and all it handed out is consumed. -/
theorem Invariant.atEnd_iff (h : Invariant source config r) :
    Cursor.atEnd r = true ↔ r.exhausted = true ∧ r.pos = r.loadedEnd := by
  rw [atEnd_eq_true_iff]
  constructor
  · intro hend
    exact ⟨h.exhausted_of_end hend, Nat.le_antisymm h.pos_le_end hend⟩
  · rintro ⟨-, hpos⟩
    exact Nat.le_of_eq hpos.symm

/-- **A reader within reach shows its source's bytes, and nothing else.**  With `handed` the bytes
the source has handed out since the reader was made: the window is `handed` from `base` on, the
cursor stands in it with a byte ahead unless the source has ended, the window is bounded, and no
subtraction of `base` from a position is cut off at zero: not where the byte under the cursor is
looked up, and not where a refill that makes room for the byte just taken decides what to forget. -/
theorem reachable_representation (h : Reachable source config r) :
    ∃ handed : List UInt8,
      handed ++ r.source.rest = source.rest ∧
      r.source.loaded = source.loaded + handed.length ∧
      (r.base ≤ r.pos ∧ r.pos ≤ r.base + r.window.size) ∧
      r.base + r.window.size = handed.length ∧
      r.window.toList = handed.drop r.base ∧
      (r.exhausted = false → r.pos < r.base + r.window.size) ∧
      (Cursor.atEnd r = true ↔ r.exhausted = true ∧ r.pos = handed.length) ∧
      (Cursor.atEnd r = true ↔ ∃ f, (Cursor.peek r).1 = .error f) ∧
      ((∃ e, (Cursor.next r).1 = .error (.parse e)) ↔ ∃ f, (Cursor.peek r).1 = .error f) ∧
      (config.maxRetained = none → r.base = 0) ∧
      (∀ w, config.maxRetained = some w → r.window.size ≤ w + config.chunkSize) ∧
      ((r.pos - r.base : Nat) : Int) = (r.pos : Int) - r.base ∧
      ∀ bytes src', let t := ({ r with pos := r.pos + 1 } : Reader).extended src' bytes
        ((t.pos - t.base : Nat) : Int) = (t.pos : Int) - t.base := by
  have hinv := h.invariant
  have hempty : r.current? = none ↔ Cursor.atEnd r = true := by
    rw [hinv.current?_eq_none_iff, atEnd_eq_true_iff]
    exact ⟨fun h => Nat.le_of_eq h.symm, Nat.le_antisymm hinv.pos_le_end⟩
  refine ⟨source.rest.take r.loadedEnd, ?_, ?_, ⟨hinv.base_le_pos, hinv.pos_le_end⟩, ?_,
    hinv.window_eq, hinv.ahead, ?_, ?_, ?_, hinv.base_eq_zero, hinv.bounded, ?_, ?_⟩
  · rw [hinv.rest_eq, List.take_append_drop]
  · rw [hinv.length_handed]
    exact hinv.loaded_eq
  · rw [hinv.length_handed]
    rfl
  · rw [hinv.length_handed]
    exact hinv.atEnd_iff
  · rw [exists_peek_error_iff]
    exact hempty.symm
  · rw [exists_next_error_iff, exists_peek_error_iff]
  · exact Int.ofNat_sub hinv.base_le_pos
  · intro bytes src'
    exact Int.ofNat_sub (Nat.le_succ_of_le hinv.base_le_pos)

/-- A source of four bytes that is interrupted, hands out one byte, fails once, and goes on. -/
def stutteringSource : Source :=
  .ofBytes [97, 98, 99, 100]
    [.fail ⟨.interrupted, "again"⟩, .upTo 1, .fail ⟨⟨"Other"⟩, "broken"⟩, .upTo 2]

/-- A new reader of it, with chunks of two and one byte kept. -/
def stutteringReader : Reader :=
  ⟨⟨[.fail ⟨⟨"Other"⟩, "broken"⟩, .upTo 2], [98, 99, 100], 2, 1⟩, ⟨2, some 1⟩, #[97], 0, 0, false⟩

theorem ofSource_stutteringSource :
    ofSource stutteringSource ⟨2, some 1⟩ = .ok stutteringReader := by rfl

/-- …and after four tries to take a byte: the first fails, the last refills and forgets two
bytes. -/
def trimmedReader : Reader := ⟨⟨[], [], 5, 4⟩, ⟨2, some 1⟩, #[99, 100], 2, 3, false⟩

theorem reachable_trimmedReader : Reachable stutteringSource ⟨2, some 1⟩ trimmedReader :=
  (Reachable.start ofSource_stutteringSource).performAll [.next, .next, .next, .next]

theorem trimmedReader_representation :
    Reachable stutteringSource ⟨2, some 1⟩ trimmedReader ∧
      ∃ handed : List UInt8, handed ++ trimmedReader.source.rest = stutteringSource.rest ∧
        trimmedReader.window.toList = handed.drop trimmedReader.base ∧
        trimmedReader.pos < trimmedReader.base + trimmedReader.window.size := by
  obtain ⟨handed, hrest, -, -, -, hwindow, hahead, -⟩ :=
    reachable_representation reachable_trimmedReader
  exact ⟨reachable_trimmedReader, handed, hrest, hwindow, hahead rfl⟩

end Backtrack.Reader
