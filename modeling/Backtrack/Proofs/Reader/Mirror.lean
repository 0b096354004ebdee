import Backtrack.Proofs.Cursor.Loaded
import Backtrack.Proofs.Reader.Reachable

/-!
# Proofs/Reader/Mirror — a reader is an index into what its source delivers

    window, source, exhausted   ──▸   D = everything delivered,   pos

Under the invariant the byte under the cursor is `D[pos]`, loaded or not, so every operation of a
reader does what the plain index into `D` does.  Two things may come between them: the source fails
to load the byte *after* the one taken (`read`), or the step back leads into what was forgotten.
Both leave the cursor where it is.
-/

namespace Backtrack.Reader

variable {source : Source} {config : ReaderConfig} {r : Reader}

/-- **What can be seen of a reader is unchanged**: its view and the start of its window. -/
def Unmoved (r r' : Reader) : Prop :=
  Cursor.view r' = Cursor.view r ∧ r'.windowStart = r.windowStart

/-- The next byte cannot be taken because the source fails. -/
def FailsToRead (r : Reader) : Prop := ∃ p e, (Cursor.next r).1 = .error (.stream (.read p e))

/-- The loaded bytes from `base` on, and then those to come, are what is delivered from `base`
on. -/
theorem Coherent.drop_delivered (h : Coherent source config r) :
    (source.delivered config.chunkSize).drop r.base = r.window.toList ++ r.toCome := by
  rw [h.delivered_eq, h.drop_handed_append]

/-- **The byte under the cursor is the one delivered at its position.** -/
theorem Invariant.current?_eq_getElem? (h : Invariant source config r) :
    r.current? = (source.delivered config.chunkSize)[r.pos]? := by
  have hindex : (source.delivered config.chunkSize)[r.pos]?
      = (r.window.toList ++ r.toCome)[r.pos - r.base]? := by
    rw [← h.drop_delivered, List.getElem?_drop, Nat.add_sub_cancel' h.base_le_pos]
  rw [hindex]
  by_cases hend : r.pos = r.loadedEnd
  · -- at the end of the window the source has ended, so nothing is to come
    have hexhausted := h.exhausted_of_end (Nat.le_of_eq hend.symm)
    simp [current?, toCome, hexhausted]
  · have := h.base_le_pos
    have := h.pos_le_end
    have hlt : r.pos - r.base < r.window.toList.length := by
      rw [Array.length_toList]
      unfold loadedEnd at *
      omega
    rw [List.getElem?_append_left hlt, Array.getElem?_toList]
    rfl

/-! ## The three operations against the index -/

theorem Invariant.peek_eq_peekAt (h : Invariant source config r) :
    r.peek = Cursor.peekAt (source.delivered config.chunkSize) r.pos := by
  rw [peek, Cursor.peekAt, ← h.current?_eq_getElem?]
  cases r.current? <;> rfl

theorem Invariant.atEnd_iff_getElem? (h : Invariant source config r) :
    Cursor.atEnd r = true ↔ (source.delivered config.chunkSize)[r.pos]? = none := by
  rw [← h.current?_eq_getElem?, h.current?_eq_none_iff, atEnd_eq_true_iff]
  exact ⟨Nat.le_antisymm h.pos_le_end, fun hpos => Nat.le_of_eq hpos.symm⟩

/-- **Taking a byte** is taking it at the index, or a failing source that leaves the byte where it
is. -/
theorem Invariant.next_eq_nextAt_or (h : Invariant source config r) :
    (r.next.1, r.next.2.pos) = Cursor.nextAt (source.delivered config.chunkSize) r.pos ∨
      ∃ b e src', (source.delivered config.chunkSize)[r.pos]? = some b ∧
        r.source.fetch config.chunkSize = (.error e, src') ∧
        r.next = (.error (.stream (.read r.loadedEnd e)), { r with source := src' }) := by
  rw [Cursor.nextAt, ← h.current?_eq_getElem?]
  have htaken := taken_next r
  generalize r.next = out at htaken
  cases htaken with
  | ended hcur => exact .inl (by rw [hcur])
  | kept hcur => exact .inl (by rw [hcur])
  | refilled hcur => exact .inl (by rw [hcur, pos_trim]; rfl)
  | failed hcur hlast hopen hfetch =>
    rw [h.config_eq] at hfetch
    exact .inr ⟨_, _, _, hcur, hfetch, rfl⟩

/-- **Stepping back** is stepping back from the index, or a refusal to leave the window. -/
theorem back_eq_backFrom_or (r : Reader) (n : Nat) :
    ((r.back n).1, (r.back n).2.pos) = Cursor.backFrom n r.pos ∨
      (n ≤ r.pos ∧ r.pos - n < r.base ∧ r.back n = (.error (r.backPastWindow n), r)) := by
  obtain ⟨hstart, heq⟩ | ⟨hle, hwindow, heq⟩ | ⟨hle, -, heq⟩ := back_cases n r
  · exact .inl (by rw [heq, Cursor.backFrom, if_neg (Nat.not_le_of_lt hstart)])
  · exact .inr ⟨hle, hwindow, heq⟩
  · exact .inl (by rw [heq, Cursor.backFrom, if_pos hle])

/-! ## A loaded cursor beside the reader -/

/-- **An array cursor in step with a reader**: over all that is delivered, at the same position. -/
structure InStep (source : Source) (config : ReaderConfig) (m : ArrayCursor UInt8) (r : Reader) :
    Prop where
  invariant : Invariant source config r
  toList_eq : m.toList = source.delivered config.chunkSize
  pos_eq : m.pos = r.pos

namespace InStep

variable {m : ArrayCursor UInt8}

/-- A new reader and a new array cursor. -/
theorem start (h : ofSource source config = .ok r) :
    InStep source config (.ofList (source.delivered config.chunkSize)) r :=
  ⟨invariant_ofSource h, rfl, (pos_ofSource h).symm⟩

/-- Every reader has an array cursor in step with it. -/
theorem exists_of_invariant (h : Invariant source config r) :
    ∃ m, InStep source config m r := by
  have hle : r.pos ≤ (source.delivered config.chunkSize).length := by
    rw [h.delivered_eq, List.length_append, h.length_handed]
    exact Nat.le_add_right_of_le h.pos_le_end
  exact ⟨⟨(source.delivered config.chunkSize).toArray, r.pos, hle⟩, h, rfl, rfl⟩

theorem atEnd_eq (h : InStep source config m r) : Cursor.atEnd m = Cursor.atEnd r := by
  rw [Bool.eq_iff_iff, m.atEnd_iff, h.invariant.atEnd_iff_getElem?, h.toList_eq, h.pos_eq]

theorem peek_eq (h : InStep source config m r) : m.peek = r.peek := by
  rw [m.peek_eq_peekAt, h.invariant.peek_eq_peekAt, h.toList_eq, h.pos_eq]

theorem view_eq (h : InStep source config m r) : Cursor.view m = Cursor.view r := by
  rw [Cursor.view, Cursor.view, h.atEnd_eq]
  exact congrArg₂ (fun p q => (⟨p, Cursor.atEnd r, q⟩ : Cursor.View UInt8)) h.pos_eq h.peek_eq

/-- **Taking, side by side**: the same answer and still in step, or the source fails, nothing has
moved, and the array cursor is still in step where it was. -/
theorem next (h : InStep source config m r) :
    (m.next.1 = r.next.1 ∧ InStep source config m.next.2 r.next.2) ∨
      ∃ b e, m.next.1 = .ok b ∧ r.next.1 = .error (.stream (.read r.loadedEnd e)) ∧
        (∃ src', r.source.fetch config.chunkSize = (.error e, src')) ∧
        InStep source config m r.next.2 ∧ r.Unmoved r.next.2 := by
  have hm := m.next_eq_nextAt
  rw [h.toList_eq, h.pos_eq] at hm
  rcases h.invariant.next_eq_nextAt_or with hr | ⟨b, e, src', hb, hfetch, hr⟩
  · rw [← hr, Prod.mk.injEq] at hm
    exact .inl ⟨hm.1, h.invariant.next, m.toList_next.trans h.toList_eq, hm.2⟩
  · rw [Cursor.nextAt, hb, Prod.mk.injEq] at hm
    refine .inr ⟨b, e, hm.1, by rw [hr], ⟨src', hfetch⟩, ⟨h.invariant.next, h.toList_eq, ?_⟩, ?_⟩
    · rw [h.pos_eq, hr]
    · rw [hr]
      exact ⟨rfl, rfl⟩

/-- **Stepping back, side by side**: the same answer and still in step, or a refusal to leave the
window that moves nothing. -/
theorem back (h : InStep source config m r) (n : Nat) :
    ((m.back n).1 = (r.back n).1 ∧ InStep source config (m.back n).2 (r.back n).2) ∨
      (n ≤ r.pos ∧ r.pos - n < r.base ∧ (m.back n).1 = .ok () ∧
        r.back n = (.error (r.backPastWindow n), r)) := by
  have hm := m.back_eq_backFrom n
  rw [h.pos_eq] at hm
  rcases r.back_eq_backFrom_or n with hr | ⟨hle, hwindow, hr⟩
  · rw [← hr, Prod.mk.injEq] at hm
    exact .inl ⟨hm.1, h.invariant.back n, (m.toList_back n).trans h.toList_eq, hm.2⟩
  · rw [Cursor.backFrom, if_pos hle, Prod.mk.injEq] at hm
    exact .inr ⟨hle, hwindow, hm.1, hr⟩

end InStep

end Backtrack.Reader
