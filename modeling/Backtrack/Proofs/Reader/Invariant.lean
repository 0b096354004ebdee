import Backtrack.Proofs.Source.Delivery
import Backtrack.Reader.Basic

/-!
# Proofs/Reader/Invariant — what a reader's fields have to do with its source

    source.rest  =  forgotten ++ window ++ still in the source
                    0           base     loadedEnd

Two layers.  `Coherent` ties the window and the two ends of it to the bytes the source has handed
out, and holds even while a byte is being taken.  `Invariant` adds what holds between two
operations: the byte ahead, and the bound on the window.

Taking a byte has four outcomes (`Taken`): nothing left, a byte with another one loaded behind it, a
byte and a new chunk, a failing source.  Every fact about `next` is read off these four.
-/

namespace Backtrack.Reader

variable {source src' : Source} {config : ReaderConfig} {r : Reader} {bytes : List UInt8}
  {e : IoError}

/-! ## The two layers -/

/-- The bytes that are neither loaded nor forgotten and will still be delivered. -/
def toCome (r : Reader) : List UInt8 :=
  if r.exhausted then [] else r.source.delivered r.config.chunkSize

/-- **The window is a piece of what the source handed out**, and the cursor stands in it or at its
end.  Everything is told against `source`, the source as it was when the reader was made. -/
structure Coherent (source : Source) (config : ReaderConfig) (r : Reader) : Prop where
  config_eq : r.config = config
  base_le_pos : r.base ≤ r.pos
  pos_le_end : r.pos ≤ r.loadedEnd
  end_le : r.loadedEnd ≤ source.rest.length
  loaded_eq : r.source.loaded = source.loaded + r.loadedEnd
  rest_eq : r.source.rest = source.rest.drop r.loadedEnd
  window_eq : r.window.toList = (source.rest.take r.loadedEnd).drop r.base
  delivered_eq : source.delivered config.chunkSize = source.rest.take r.loadedEnd ++ r.toCome
  base_eq_zero : config.maxRetained = none → r.base = 0

/-- **The representation invariant.** -/
structure Invariant (source : Source) (config : ReaderConfig) (r : Reader) : Prop extends
    Coherent source config r where
  ahead : r.exhausted = false → r.pos < r.loadedEnd
  bounded : ∀ w, config.maxRetained = some w → r.window.size ≤ w + config.chunkSize

theorem Coherent.length_handed (h : Coherent source config r) :
    (source.rest.take r.loadedEnd).length = r.loadedEnd := by
  rw [List.length_take, Nat.min_eq_left h.end_le]

/-- The bytes handed out, and whatever comes after them, are from `base` on the window and that. -/
theorem Coherent.drop_handed_append (h : Coherent source config r) (more : List UInt8) :
    (source.rest.take r.loadedEnd ++ more).drop r.base = r.window.toList ++ more := by
  have hbase : r.base ≤ (source.rest.take r.loadedEnd).length := by
    rw [h.length_handed]
    exact Nat.le_trans h.base_le_pos h.pos_le_end
  rw [List.drop_append_of_le_length hbase, ← h.window_eq]

/-- At the end of the window, the source has ended. -/
theorem Invariant.exhausted_of_end (h : Invariant source config r) (hend : r.loadedEnd ≤ r.pos) :
    r.exhausted = true := by
  rw [← Bool.not_eq_false]
  intro hopen
  have := h.ahead hopen
  omega

/-- Moving the cursor within the window is no concern of the window. -/
theorem Coherent.movedTo (h : Coherent source config r) {p : Nat} (hbase : r.base ≤ p)
    (hend : p ≤ r.loadedEnd) : Coherent source config { r with pos := p } :=
  { h with base_le_pos := hbase, pos_le_end := hend }

theorem Invariant.movedTo (h : Invariant source config r) {p : Nat} (hbase : r.base ≤ p)
    (hend : p ≤ r.loadedEnd) (hahead : r.exhausted = false → p < r.loadedEnd) :
    Invariant source config { r with pos := p } :=
  { h.toCoherent.movedTo hbase hend with ahead := hahead, bounded := h.bounded }

/-! ## Loading and forgetting -/

/-- The reader with one more answer of the source behind its window. -/
def extended (r : Reader) (source : Source) (bytes : List UInt8) : Reader :=
  { r with source, window := r.window ++ bytes, exhausted := bytes.isEmpty }

@[simp] theorem loadedEnd_extended (r : Reader) (source : Source) (bytes : List UInt8) :
    (r.extended source bytes).loadedEnd = r.loadedEnd + bytes.length := by
  change r.base + (r.window ++ bytes).size = r.base + r.window.size + bytes.length
  rw [← Array.length_toList, Array.toList_appendList, List.length_append, Array.length_toList,
    Nat.add_assoc]

theorem refill_of_ok (h : r.source.fetch r.config.chunkSize = (.ok bytes, src')) :
    r.refill = (.ok (), (r.extended src' bytes).trim) := by
  rw [refill, h]
  rfl

theorem refill_of_error (h : r.source.fetch r.config.chunkSize = (.error e, src')) :
    r.refill = (.error (.read r.loadedEnd e), { r with source := src' }) := by
  rw [refill, h]

theorem ensureAhead_of_need (h : r.pos = r.loadedEnd ∧ r.exhausted = false) :
    r.ensureAhead = r.refill := if_pos h

theorem ensureAhead_of_no_need (h : ¬ (r.pos = r.loadedEnd ∧ r.exhausted = false)) :
    r.ensureAhead = (.ok (), r) := if_neg h

/-- One more answer of the source keeps the window coherent. -/
theorem Coherent.extended (h : Coherent source config r) (hopen : r.exhausted = false)
    (hf : Source.FetchHanded config.chunkSize r.source bytes src') :
    Coherent source config (r.extended src' bytes) := by
  have hrest : bytes ++ src'.rest = source.rest.drop r.loadedEnd := hf.append_rest.trans h.rest_eq
  have htake : source.rest.take (r.loadedEnd + bytes.length)
      = source.rest.take r.loadedEnd ++ bytes := by
    rw [List.take_add, ← hrest, List.take_left]
  have hlength : bytes.length ≤ source.rest.length - r.loadedEnd := by
    have := congrArg List.length hrest
    simp only [List.length_append, List.length_drop] at this
    omega
  refine ⟨h.config_eq, h.base_le_pos, ?_, ?_, ?_, ?_, ?_, ?_, h.base_eq_zero⟩
  · rw [loadedEnd_extended]
    exact Nat.le_add_right_of_le h.pos_le_end
  · rw [loadedEnd_extended]
    have := h.end_le
    omega
  · rw [loadedEnd_extended, ← Nat.add_assoc, ← h.loaded_eq]
    exact hf.loaded_eq
  · rw [loadedEnd_extended, ← List.drop_drop, ← hrest, List.drop_left]
    rfl
  · rw [loadedEnd_extended, htake]
    change (r.window ++ bytes).toList = List.drop r.base _
    rw [Array.toList_appendList, h.drop_handed_append]
  · rw [loadedEnd_extended, htake, h.delivered_eq, toCome, hopen, h.config_eq, hf.delivered_eq,
      toCome]
    change _ = _ ++ if bytes.isEmpty then [] else src'.delivered r.config.chunkSize
    rw [h.config_eq]
    cases bytes <;> simp

/-- What trimming does: nothing while few enough consumed bytes are kept, and otherwise it moves
`base` up to the last `w` of them. -/
theorem trim_cases (r : Reader) :
    (r.trim = r ∧ ∀ w, r.config.maxRetained = some w → r.pos ≤ r.base + w) ∨
      ∃ w, r.config.maxRetained = some w ∧ r.base + w < r.pos ∧
        r.trim = { r with window := r.window.extract (r.pos - r.base - w) r.window.size,
                          base := r.pos - w } := by
  unfold trim
  split
  · next hnone => exact .inl ⟨rfl, fun w hw => by simp [hnone] at hw⟩
  · next limit hlimit =>
    split
    · next hlt =>
      have hbase : r.base + (r.pos - r.base - limit) = r.pos - limit := by omega
      exact .inr ⟨limit, hlimit, by omega, by rw [← hbase]⟩
    · next hle =>
      refine .inl ⟨rfl, fun w hw => ?_⟩
      obtain rfl : limit = w := Option.some.inj (hlimit.symm.trans hw)
      omega

@[simp] theorem pos_trim (r : Reader) : r.trim.pos = r.pos := by
  obtain ⟨heq, -⟩ | ⟨w, -, -, heq⟩ := trim_cases r <;> rw [heq]

@[simp] theorem source_trim (r : Reader) : r.trim.source = r.source := by
  obtain ⟨heq, -⟩ | ⟨w, -, -, heq⟩ := trim_cases r <;> rw [heq]

@[simp] theorem exhausted_trim (r : Reader) : r.trim.exhausted = r.exhausted := by
  obtain ⟨heq, -⟩ | ⟨w, -, -, heq⟩ := trim_cases r <;> rw [heq]

/-- Trimming forgets at the front only. -/
theorem loadedEnd_trim (h : r.pos ≤ r.loadedEnd) : r.trim.loadedEnd = r.loadedEnd := by
  obtain ⟨heq, -⟩ | ⟨w, -, hlt, heq⟩ := trim_cases r
  · rw [heq]
  · simp only [heq, loadedEnd, Array.size_extract] at h ⊢
    omega

/-- A refill adds its bytes at the far end. -/
theorem loadedEnd_trim_extended (h : r.pos ≤ r.loadedEnd) (source : Source) (bytes : List UInt8) :
    (r.extended source bytes).trim.loadedEnd = r.loadedEnd + bytes.length := by
  have hend := loadedEnd_extended r source bytes
  have hle : r.pos ≤ (r.extended source bytes).loadedEnd := hend ▸ Nat.le_add_right_of_le h
  rw [loadedEnd_trim hle, hend]

/-- Trimming does not change what is loaded, only how much of it is kept. -/
theorem Coherent.trim (h : Coherent source config r) : Coherent source config r.trim := by
  have hend := loadedEnd_trim h.pos_le_end
  obtain ⟨heq, -⟩ | ⟨w, hw, hlt, heq⟩ := trim_cases r
  · rwa [heq]
  have hbase : r.base + (r.pos - r.base - w) = r.pos - w := by omega
  refine ⟨?_, ?_, ?_, ?_, ?_, ?_, ?_, ?_, ?_⟩
  · rw [heq]
    exact h.config_eq
  · rw [heq]
    exact Nat.sub_le _ _
  · rw [hend, heq]
    exact h.pos_le_end
  · rw [hend]
    exact h.end_le
  · rw [hend, heq]
    exact h.loaded_eq
  · rw [hend, heq]
    exact h.rest_eq
  · rw [hend, heq]
    change (r.window.extract _ _).toList = List.drop (r.pos - w) _
    rw [Array.toList_extract, ← hbase, ← List.drop_drop, ← h.window_eq]
    simp [List.take_of_length_le]
  · rw [hend, heq]
    exact h.delivered_eq
  · intro hnone
    simp [h.config_eq, hnone] at hw

/-- After trimming, at most the last `w` consumed bytes are kept. -/
theorem pos_le_base_trim {w : Nat} (h : r.config.maxRetained = some w) :
    r.trim.pos ≤ r.trim.base + w := by
  obtain ⟨heq, hle⟩ | ⟨w', hw', hlt, heq⟩ := trim_cases r
  · rw [heq]
    exact hle w h
  · obtain rfl : w' = w := Option.some.inj (hw'.symm.trans h)
    rw [heq]
    dsimp only
    omega

/-- **A refill at the end of the window restores the invariant**: either there is a byte ahead now,
or the source has ended; and what is kept is bounded by what was consumed and what was loaded. -/
theorem Coherent.refilled (h : Coherent source config r) (hopen : r.exhausted = false)
    (hlast : r.pos = r.loadedEnd)
    (hf : Source.FetchHanded config.chunkSize r.source bytes src') :
    Invariant source config (r.extended src' bytes).trim := by
  have hcoherent := h.extended hopen hf
  have hend : (r.extended src' bytes).trim.loadedEnd = r.pos + bytes.length := by
    rw [loadedEnd_trim_extended h.pos_le_end, hlast]
  have hpos : (r.extended src' bytes).trim.pos = r.pos := pos_trim _
  refine { hcoherent.trim with ahead := fun hahead => ?_, bounded := fun w hw => ?_ }
  · rw [exhausted_trim] at hahead
    have : bytes ≠ [] := by simpa [Reader.extended] using hahead
    have := List.length_pos_iff.2 this
    omega
  · have hkept := pos_le_base_trim (r := r.extended src' bytes) (hcoherent.config_eq ▸ hw)
    have := hf.length_le
    rw [hpos] at hkept
    rw [loadedEnd] at hend
    omega

/-- A failing source takes nothing with it. -/
theorem Invariant.failed (h : Invariant source config r)
    (hf : Source.FetchFailed config.chunkSize r.source e src') :
    Invariant source config { r with source := src' } :=
  { h with
    loaded_eq := hf.loaded_eq.trans h.loaded_eq
    rest_eq := hf.rest_eq.trans h.rest_eq
    delivered_eq := by
      have htoCome : ({ r with source := src' } : Reader).toCome = r.toCome := by
        rw [toCome, toCome, h.config_eq, hf.delivered_eq]
      rw [htoCome]
      exact h.delivered_eq }

/-! ## Taking a byte -/

/-- **The four outcomes of taking a byte.** -/
inductive Taken (r : Reader) : Except Failure UInt8 × Reader → Prop where
  /-- Nothing is left. -/
  | ended (hcur : r.current? = none) : Taken r (.error (Cursor.nextPastEnd r.pos), r)
  /-- Another byte is loaded behind this one, or the source has ended. -/
  | kept {b : UInt8} (hcur : r.current? = some b)
      (hmore : ¬ (r.pos + 1 = r.loadedEnd ∧ r.exhausted = false)) :
      Taken r (.ok b, { r with pos := r.pos + 1 })
  /-- It was the last one loaded, and the source answered. -/
  | refilled {b : UInt8} {bytes : List UInt8} {src' : Source} (hcur : r.current? = some b)
      (hlast : r.pos + 1 = r.loadedEnd) (hopen : r.exhausted = false)
      (hfetch : r.source.fetch r.config.chunkSize = (.ok bytes, src')) :
      Taken r (.ok b, (({ r with pos := r.pos + 1 } : Reader).extended src' bytes).trim)
  /-- It was the last one loaded, and the source failed. -/
  | failed {b : UInt8} {e : IoError} {src' : Source} (hcur : r.current? = some b)
      (hlast : r.pos + 1 = r.loadedEnd) (hopen : r.exhausted = false)
      (hfetch : r.source.fetch r.config.chunkSize = (.error e, src')) :
      Taken r (.error (.stream (.read r.loadedEnd e)), { r with source := src' })

theorem taken_next (r : Reader) : Taken r r.next := by
  rw [next]
  cases hcur : r.current? with
  | none => exact .ended hcur
  | some b =>
    by_cases hneed : r.pos + 1 = r.loadedEnd ∧ r.exhausted = false
    · rcases hfetch : r.source.fetch r.config.chunkSize with ⟨e | bytes, src'⟩
      · have hrefill := (ensureAhead_of_need (r := { r with pos := r.pos + 1 }) hneed).trans
          (refill_of_error hfetch)
        rw [hrefill]
        exact .failed hcur hneed.1 hneed.2 hfetch
      · have hrefill := (ensureAhead_of_need (r := { r with pos := r.pos + 1 }) hneed).trans
          (refill_of_ok hfetch)
        rw [hrefill]
        exact .refilled hcur hneed.1 hneed.2 hfetch
    · rw [ensureAhead_of_no_need (r := { r with pos := r.pos + 1 }) hneed]
      exact .kept hcur hneed

/-- A byte under the cursor is a loaded one. -/
theorem Coherent.pos_lt_end (h : Coherent source config r) {b : UInt8}
    (hcur : r.current? = some b) : r.pos < r.loadedEnd := by
  have := (Array.getElem?_eq_some_iff.1 hcur).1
  have := h.base_le_pos
  rw [loadedEnd]
  omega

/-! ## Every operation keeps the invariant -/

theorem Invariant.next (h : Invariant source config r) : Invariant source config r.next.2 := by
  have htaken := taken_next r
  generalize r.next = out at htaken
  cases htaken with
  | ended => exact h
  | kept hcur hmore =>
    have := h.base_le_pos
    have := h.pos_lt_end hcur
    exact h.movedTo (by omega) (by omega) fun hopen =>
      Nat.lt_of_le_of_ne (by omega) fun hlast => hmore ⟨hlast, hopen⟩
  | refilled hcur hlast hopen hfetch =>
    rw [h.config_eq] at hfetch
    have hmoved := h.toCoherent.movedTo (Nat.le_succ_of_le h.base_le_pos) (h.pos_lt_end hcur)
    exact hmoved.refilled hopen hlast (Source.fetchHanded_of_fetch hfetch)
  | failed hcur hlast hopen hfetch =>
    rw [h.config_eq] at hfetch
    exact h.failed (Source.fetchFailed_of_fetch hfetch)

/-- **The three outcomes of stepping back**: refused at the start of the input, refused at the start
of the window, or a move of the cursor within the window. -/
theorem back_cases (n : Nat) (r : Reader) :
    (r.pos < n ∧ r.back n = (.error (Cursor.backPastStart n r.pos), r)) ∨
      (n ≤ r.pos ∧ r.pos - n < r.base ∧ r.back n = (.error (r.backPastWindow n), r)) ∨
      (n ≤ r.pos ∧ r.base ≤ r.pos - n ∧ r.back n = (.ok (), { r with pos := r.pos - n })) := by
  rw [Reader.back]
  by_cases hstart : r.pos < n
  · exact .inl ⟨hstart, if_pos hstart⟩
  rw [if_neg hstart]
  by_cases hwindow : r.pos - n < r.base
  · exact .inr (.inl ⟨Nat.le_of_not_lt hstart, hwindow, if_pos hwindow⟩)
  · exact .inr (.inr ⟨Nat.le_of_not_lt hstart, Nat.le_of_not_lt hwindow, if_neg hwindow⟩)

/-- Stepping back does not touch the source. -/
theorem source_back (n : Nat) (r : Reader) : (r.back n).2.source = r.source := by
  obtain ⟨-, heq⟩ | ⟨-, -, heq⟩ | ⟨-, -, heq⟩ := back_cases n r <;> rw [heq]

theorem Invariant.back (h : Invariant source config r) (n : Nat) :
    Invariant source config (r.back n).2 := by
  obtain ⟨-, heq⟩ | ⟨-, -, heq⟩ | ⟨-, hbase, heq⟩ := back_cases n r
  · rwa [heq]
  · rwa [heq]
  · rw [heq]
    have := h.pos_le_end
    exact h.movedTo hbase (by omega) fun hopen =>
      Nat.lt_of_le_of_lt (Nat.sub_le _ _) (h.ahead hopen)

/-! ## Making a reader -/

/-- A reader with nothing loaded. -/
def unloaded (source : Source) (config : ReaderConfig) : Reader :=
  ⟨source, config, #[], 0, 0, false⟩

theorem coherent_unloaded (source : Source) (config : ReaderConfig) :
    Coherent source config (unloaded source config) where
  config_eq := rfl
  base_le_pos := Nat.le_refl 0
  pos_le_end := Nat.le_refl 0
  end_le := Nat.zero_le _
  loaded_eq := rfl
  rest_eq := rfl
  window_eq := rfl
  delivered_eq := rfl
  base_eq_zero _ := rfl

/-- **Making a reader works out exactly when the configuration is free of faults and the first fetch
does**, and what it makes has that fetch loaded. -/
theorem ofSource_eq_ok_iff : ofSource source config = .ok r ↔
    config.fault? = none ∧ ∃ bytes src', source.fetch config.chunkSize = (.ok bytes, src') ∧
      r = ((unloaded source config).extended src' bytes).trim := by
  rw [ofSource]
  cases config.fault? with
  | some fault => simp
  | none =>
    dsimp only
    rw [ensureAhead_of_need ⟨rfl, rfl⟩]
    rcases hfetch : source.fetch config.chunkSize with ⟨e | bytes, src'⟩
    · rw [refill_of_error hfetch]
      simp
    · rw [refill_of_ok hfetch]
      change Except.ok ((unloaded source config).extended src' bytes).trim = _ ↔ _
      constructor
      · intro h
        exact ⟨rfl, bytes, src', rfl, (Except.ok.inj h).symm⟩
      · rintro ⟨-, bytes', src'', heq, rfl⟩
        cases heq
        rfl

/-- **A reader starts within its invariant.** -/
theorem invariant_ofSource (h : ofSource source config = .ok r) : Invariant source config r := by
  obtain ⟨-, bytes, src', hfetch, rfl⟩ := ofSource_eq_ok_iff.1 h
  exact (coherent_unloaded source config).refilled rfl rfl (Source.fetchHanded_of_fetch hfetch)

/-- …at the first byte. -/
theorem pos_ofSource (h : ofSource source config = .ok r) : r.pos = 0 := by
  obtain ⟨-, bytes, src', -, rfl⟩ := ofSource_eq_ok_iff.1 h
  exact pos_trim _

end Backtrack.Reader
