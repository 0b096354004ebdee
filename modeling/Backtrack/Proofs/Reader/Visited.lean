import Backtrack.Proofs.Action.Simulation
import Backtrack.Proofs.Reader.Mirror

/-!
# Proofs/Reader/Visited — positions a reader can take up again without its source

    base ──── kept ────▸ pos ──── unread ────▸ p ── at least one more byte, or the end ──▸

A position is **visited** if all bytes before it are loaded, and one more behind them unless the
source has ended.  The cursor's own position always is, and no call makes a visited position
unvisited: loading goes on at the far end, and what is forgotten is forgotten at the near end.

So below a visited position taking a byte is a move of the cursor and nothing else (`next_eq`).  A
return to it therefore leaves all of the reader but its position alone, forward or backward; unless
it has been forgotten, and then it is refused.
-/

namespace Backtrack.Reader

variable {source : Source} {config : ReaderConfig} {r : Reader} {p : Nat}

/-- **A position up to which no byte has to be loaded any more.** -/
structure Visited (source : Source) (config : ReaderConfig) (p : Nat) (r : Reader) : Prop extends
    Invariant source config r where
  le_end : p ≤ r.loadedEnd
  lt_end : r.exhausted = false → p < r.loadedEnd

/-- Where the cursor is, it has been. -/
theorem Invariant.visited (h : Invariant source config r) : Visited source config r.pos r :=
  { h with le_end := h.pos_le_end, lt_end := h.ahead }

namespace Visited

/-! ## Visited once, visited for good -/

theorem next (h : Visited source config p r) : Visited source config p r.next.2 := by
  have hinv := h.toInvariant.next
  have htaken := taken_next r
  generalize r.next = out at htaken hinv
  cases htaken with
  | ended => exact h
  | kept => exact { hinv with le_end := h.le_end, lt_end := h.lt_end }
  | @refilled b bytes src' hcur hlast hopen hfetch =>
    have hend := loadedEnd_trim_extended (r := { r with pos := r.pos + 1 }) (h.pos_lt_end hcur) src'
      bytes
    have hlt : p < (({ r with pos := r.pos + 1 } : Reader).extended src' bytes).trim.loadedEnd := by
      rw [hend]
      exact Nat.lt_add_right _ (h.lt_end hopen)
    exact { hinv with le_end := Nat.le_of_lt hlt, lt_end := fun _ => hlt }
  | failed => exact { hinv with le_end := h.le_end, lt_end := h.lt_end }

theorem back (h : Visited source config p r) (n : Nat) : Visited source config p (r.back n).2 := by
  have hinv := h.toInvariant.back n
  obtain ⟨-, heq⟩ | ⟨-, -, heq⟩ | ⟨-, -, heq⟩ := back_cases n r
  · rwa [heq]
  · rwa [heq]
  · rw [heq] at hinv ⊢
    exact { hinv with le_end := h.le_end, lt_end := h.lt_end }

theorem perform (h : Visited source config p r) (c : Call) :
    Visited source config p (Cursor.perform c r).2 := by
  cases c with
  | atEnd => exact h
  | pos => exact h
  | peek => exact h
  | next => exact h.next
  | back n => exact h.back n

theorem performAll (calls : List Call) (h : Visited source config p r) :
    Visited source config p (Cursor.performAll calls r) := by
  induction calls generalizing r with
  | nil => exact h
  | cons c calls ih => exact ih (h.perform c)

/-! ## Below a visited position -/

/-- **Below a visited position, taking a byte only moves the cursor.** -/
theorem next_eq (h : Visited source config p r) (hlt : r.pos < p) :
    ∃ b, (source.delivered config.chunkSize)[r.pos]? = some b ∧
      Cursor.next r = (.ok b, { r with pos := r.pos + 1 }) := by
  have hle := h.le_end
  have hcurrent : r.current? ≠ none := by
    rw [Ne, h.current?_eq_none_iff]
    omega
  rw [← h.current?_eq_getElem?]
  change ∃ b, _ ∧ r.next = _
  have htaken := taken_next r
  generalize r.next = out at htaken
  cases htaken with
  | ended hcur => exact absurd hcur hcurrent
  | kept hcur _ => exact ⟨_, hcur, rfl⟩
  | refilled _ hlast hopen _ =>
    -- the byte behind the visited position is loaded, so this one was not the last
    have := h.lt_end hopen
    omega
  | failed _ hlast hopen _ =>
    have := h.lt_end hopen
    omega

/-- The cursor may stand anywhere between the start of the window and a visited position. -/
theorem movedTo (h : Visited source config p r) {q : Nat} (hbase : r.base ≤ q) (hle : q ≤ p) :
    Visited source config p { r with pos := q } :=
  { h.toInvariant.movedTo hbase (Nat.le_trans hle h.le_end)
      (fun hopen => Nat.lt_of_le_of_lt hle (h.lt_end hopen)) with
    le_end := h.le_end
    lt_end := h.lt_end }

theorem skip_eq {k : Nat} (h : Visited source config p r) (hk : r.pos + k ≤ p) :
    Cursor.skip k r = (.ok (), { r with pos := r.pos + k }) := by
  induction k generalizing r with
  | zero => rfl
  | succ k ih =>
    obtain ⟨b, -, hnext⟩ := h.next_eq (by omega)
    have hbase := h.base_le_pos
    rw [Cursor.skip, hnext]
    refine (ih (h.movedTo (by omega) (by omega)) ?_).trans ?_
    · dsimp only
      omega
    · simp only [Nat.add_assoc, Nat.add_comm 1 k]

/-! ## Returning -/

/-- **A return to a visited position that is kept** leaves all but the position alone. -/
theorem rewind_eq (h : Visited source config p r) (hbase : r.base ≤ p) :
    Cursor.rewind p r = (.ok (), { r with pos := p }) := by
  have hmove : Cursor.moveTo p r = (.ok (), { r with pos := p }) := by
    by_cases hle : p ≤ r.pos
    · have hpos : r.pos - (r.pos - p) = p := by omega
      rw [Action.moveTo_of_le (s := r) hle]
      obtain ⟨hn, -⟩ | ⟨-, hwindow, -⟩ | ⟨-, -, heq⟩ := back_cases (r.pos - p) r
      · omega
      · omega
      · rw [hpos] at heq
        exact heq
    · have hpos : r.pos + (p - r.pos) = p := by omega
      rw [Action.moveTo_of_not_le (s := r) hle]
      refine (h.skip_eq (Nat.le_of_eq hpos)).trans ?_
      rw [hpos]
  rw [Cursor.rewind, hmove]

end Visited

/-- **A return to a position that is forgotten** is refused, and moves nothing. -/
theorem Coherent.rewind_refused (h : Coherent source config r) (hbase : p < r.base) :
    ∃ cause, Cursor.back (r.pos - p) r = (.error (.parse cause), r) ∧
      Cursor.rewind p r = (.error (.stream (.restore p cause)), r) := by
  have hpos := h.base_le_pos
  have hback : Cursor.back (r.pos - p) r = (.error (r.backPastWindow (r.pos - p)), r) := by
    obtain ⟨hn, -⟩ | ⟨-, -, heq⟩ | ⟨-, hwindow, -⟩ := back_cases (r.pos - p) r
    · omega
    · exact heq
    · omega
  refine ⟨_, hback, ?_⟩
  have hle : p ≤ Cursor.pos r := Nat.le_of_lt (Nat.lt_of_lt_of_le hbase hpos)
  have hmove : Cursor.moveTo p r = (.error (r.backPastWindow (r.pos - p)), r) :=
    (Action.moveTo_of_le hle).trans hback
  rw [Cursor.rewind, hmove]
  rfl

end Backtrack.Reader
