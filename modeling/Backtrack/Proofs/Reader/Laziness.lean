import Backtrack.Proofs.Reader.Retention
import Backtrack.Proofs.Source.History

/-!
# Proofs/Reader/Laziness — when a reader asks its source, and how far it reads ahead

    ofSource                                  ──▸ asks
    next, last loaded byte, source not ended  ──▸ asks
    all else                                  ──▸ does not

A reader asks once when it is made.  After that it asks only to take the last loaded byte
(`Refills`), once for each try, and never again when it has been answered with nothing: an empty
answer is the last of all (`Heard`).  A refill starts where the cursor has come to and loads at most
one chunk, so what is loaded is never more than a chunk past the furthest position.
-/

namespace Backtrack.Reader

open Cursor (furthest)

variable {source : Source} {config : ReaderConfig} {r r₀ : Reader} {k : Nat}

/-! ## Which calls ask -/

/-- **A call that takes the last loaded byte** while the source has not ended. -/
def Refills (c : Call) (r : Reader) : Prop :=
  c = .next ∧ r.pos + 1 = r.base + r.window.size ∧ r.exhausted = false

/-- **Only a refill asks the source**, and an empty answer is the end. -/
theorem Invariant.perform_cases (h : Invariant source config r) (c : Call) :
    (Refills c r ∧ ∃ x, r.source.fetch config.chunkSize = (x, (Cursor.perform c r).2.source) ∧
        (x = .ok [] → (Cursor.perform c r).2.exhausted = true)) ∨
      (¬ Refills c r ∧ (Cursor.perform c r).2.source = r.source ∧
        (Cursor.perform c r).2.exhausted = r.exhausted) := by
  cases c with
  | atEnd => exact .inr ⟨nofun, rfl, rfl⟩
  | pos => exact .inr ⟨nofun, rfl, rfl⟩
  | peek => exact .inr ⟨nofun, rfl, rfl⟩
  | back n =>
    refine .inr ⟨nofun, source_back n r, ?_⟩
    change (r.back n).2.exhausted = r.exhausted
    obtain ⟨-, heq⟩ | ⟨-, -, heq⟩ | ⟨-, -, heq⟩ := back_cases n r <;> rw [heq]
  | next =>
    have hperform : (Cursor.perform .next r).2 = r.next.2 := rfl
    rw [hperform]
    have htaken := taken_next r
    generalize r.next = out at htaken
    cases htaken with
    | ended hcur =>
      have hend := h.current?_eq_none_iff.1 hcur
      refine .inr ⟨?_, rfl, rfl⟩
      rintro ⟨-, hlast, -⟩
      rw [loadedEnd] at hend
      omega
    | kept hcur hmore => exact .inr ⟨fun hrefills => hmore hrefills.2, rfl, rfl⟩
    | @refilled b bytes src' hcur hlast hopen hfetch =>
      rw [h.config_eq] at hfetch
      refine .inl ⟨⟨rfl, hlast, hopen⟩, .ok bytes, ?_, fun hx => ?_⟩
      · rw [source_trim]
        exact hfetch
      · cases hx
        exact exhausted_trim _
    | failed hcur hlast hopen hfetch =>
      rw [h.config_eq] at hfetch
      exact .inl ⟨⟨rfl, hlast, hopen⟩, _, hfetch, by rintro ⟨⟩⟩

theorem Invariant.asks_of_refills (h : Invariant source config r) {c : Call} (hc : Refills c r) :
    ∃ j, Source.Asks config.chunkSize j r.source (Cursor.perform c r).2.source := by
  rcases h.perform_cases c with ⟨-, x, hfetch, -⟩ | ⟨hnot, -⟩
  · obtain ⟨j, -, hasks⟩ := Source.asks_of_fetch hfetch
    exact ⟨j, hasks⟩
  · exact absurd hc hnot

theorem Invariant.source_of_not_refills (h : Invariant source config r) {c : Call}
    (hc : ¬ Refills c r) : (Cursor.perform c r).2.source = r.source := by
  rcases h.perform_cases c with ⟨hrefills, -⟩ | ⟨-, hsource, -⟩
  · exact absurd hrefills hc
  · exact hsource

/-! ## What has been answered -/

/-- **The reader has made the first `k` calls of its source**, and if one of them was answered with
nothing, it knows. -/
structure Heard (source : Source) (config : ReaderConfig) (k : Nat) (r : Reader) : Prop where
  source_eq : r.source = source.after config.chunkSize k
  ended : ∀ i < k, source.answer config.chunkSize i = .ok [] → r.exhausted = true

/-- **Asking once more**: interruptions are no empty answers, so if there is one, it is the last. -/
theorem Heard.of_asks {x : Except IoError (List UInt8)} {j : Nat} {r' : Reader}
    (h : Heard source config k r) (hopen : r.exhausted = false)
    (hx : r.source.answer config.chunkSize j = x)
    (hasks : Source.Asks config.chunkSize j r.source r'.source)
    (hended : x = .ok [] → r'.exhausted = true) : Heard source config (k + (j + 1)) r' where
  source_eq := by rw [hasks.source_eq, h.source_eq, ← Source.after_add]
  ended i hi hempty := by
    have hlater : ∀ i', r.source.answer config.chunkSize i'
        = source.answer config.chunkSize (k + i') := by
      intro i'
      rw [h.source_eq, Source.answer_after]
    by_cases hold : i < k
    · -- the reader would have known before
      exact nomatch hopen.symm.trans (h.ended i hold hempty)
    obtain ⟨i', rfl⟩ := Nat.exists_eq_add_of_le (Nat.le_of_not_lt hold)
    rw [← hlater] at hempty
    by_cases hlast : i' < j
    · obtain ⟨e, he, -⟩ := hasks.interrupted i' hlast
      exact nomatch hempty.symm.trans he
    · obtain rfl : i' = j := by omega
      exact hended (hx.symm.trans hempty)

theorem heard_ofSource (h : ofSource source config = .ok r) : ∃ j,
    Source.Asks config.chunkSize j source r.source ∧ Heard source config (j + 1) r := by
  obtain ⟨-, bytes, src', hfetch, rfl⟩ := ofSource_eq_ok_iff.1 h
  obtain ⟨j, hx, hasks⟩ := Source.asks_of_fetch hfetch
  have hnone : Heard source config 0 (unloaded source config) := ⟨rfl, nofun⟩
  have hsource : ((unloaded source config).extended src' bytes).trim.source = src' := source_trim _
  rw [← hsource] at hasks
  refine ⟨j, hasks, Nat.zero_add (j + 1) ▸ hnone.of_asks rfl hx hasks fun hempty => ?_⟩
  cases hempty
  exact exhausted_trim _

theorem Heard.perform (h : Heard source config k r) (hinv : Invariant source config r) (c : Call) :
    ∃ k', Heard source config k' (Cursor.perform c r).2 := by
  rcases hinv.perform_cases c with ⟨⟨-, -, hopen⟩, x, hfetch, hended⟩ | ⟨-, hsource, hexhausted⟩
  · obtain ⟨j, hx, hasks⟩ := Source.asks_of_fetch hfetch
    exact ⟨_, h.of_asks hopen hx hasks hended⟩
  · refine ⟨k, hsource.trans h.source_eq, fun i hi hempty => ?_⟩
    exact hexhausted.trans (h.ended i hi hempty)

theorem Heard.performAll (calls : List Call) (h : Heard source config k r)
    (hinv : Invariant source config r) :
    ∃ k', Heard source config k' (Cursor.performAll calls r) := by
  induction calls generalizing r k with
  | nil => exact ⟨k, h⟩
  | cons c calls ih =>
    obtain ⟨k', h'⟩ := h.perform hinv c
    exact ih h' (hinv.perform c)

/-- **A source that has ended is left alone**, whatever is called. -/
theorem Invariant.source_performAll (calls : List Call) (h : Invariant source config r)
    (hended : r.exhausted = true) : (Cursor.performAll calls r).source = r.source := by
  induction calls generalizing r with
  | nil => rfl
  | cons c calls ih =>
    rcases h.perform_cases c with ⟨⟨-, -, hopen⟩, -⟩ | ⟨-, hsource, hexhausted⟩
    · exact nomatch hopen.symm.trans hended
    · exact (ih (h.perform c) (hexhausted.trans hended)).trans hsource

/-! ## How far it reads ahead -/

/-- **One call loads nothing, or at most a chunk past the cursor.** -/
theorem Invariant.loadedEnd_perform_le (h : Invariant source config r) (c : Call) :
    (Cursor.perform c r).2.loadedEnd
      ≤ max r.loadedEnd ((Cursor.perform c r).2.pos + config.chunkSize) := by
  cases c with
  | atEnd => exact Nat.le_max_left _ _
  | pos => exact Nat.le_max_left _ _
  | peek => exact Nat.le_max_left _ _
  | back n =>
    change (r.back n).2.loadedEnd ≤ max r.loadedEnd ((r.back n).2.pos + _)
    obtain ⟨-, heq⟩ | ⟨-, -, heq⟩ | ⟨-, -, heq⟩ := back_cases n r <;> rw [heq] <;>
      exact Nat.le_max_left _ _
  | next =>
    change r.next.2.loadedEnd ≤ max r.loadedEnd (r.next.2.pos + _)
    have htaken := taken_next r
    generalize r.next = out at htaken
    cases htaken with
    | ended => exact Nat.le_max_left _ _
    | kept => exact Nat.le_max_left _ _
    | failed => exact Nat.le_max_left _ _
    | @refilled b bytes src' hcur hlast hopen hfetch =>
      rw [h.config_eq] at hfetch
      have hlength := (Source.fetchHanded_of_fetch hfetch).length_le
      have hlt : r.pos < r.loadedEnd := h.pos_lt_end hcur
      rw [loadedEnd_trim_extended (r := { r with pos := r.pos + 1 }) hlt, pos_trim]
      change r.loadedEnd + bytes.length ≤ max r.loadedEnd (r.pos + 1 + config.chunkSize)
      omega

/-- **A run loads at most a chunk past its furthest position**, beyond what was loaded before. -/
theorem Invariant.loadedEnd_performAll_le (calls : List Call) (h : Invariant source config r) :
    (Cursor.performAll calls r).loadedEnd
      ≤ max r.loadedEnd (furthest calls r + config.chunkSize) := by
  induction calls generalizing r with
  | nil => exact Nat.le_max_left _ _
  | cons c calls ih =>
    have hrest := ih (h.perform c)
    have hstep := h.loadedEnd_perform_le c
    have hpos : (Cursor.perform c r).2.pos ≤ furthest calls (Cursor.perform c r).2 :=
      Cursor.pos_le_furthest calls (Cursor.perform c r).2
    rw [furthest]
    change (Cursor.performAll calls (Cursor.perform c r).2).loadedEnd ≤ _
    omega

theorem loadedEnd_ofSource_le (h : ofSource source config = .ok r) :
    r.loadedEnd ≤ config.chunkSize := by
  obtain ⟨-, bytes, src', hfetch, rfl⟩ := ofSource_eq_ok_iff.1 h
  rw [loadedEnd_trim_extended (coherent_unloaded source config).pos_le_end]
  exact (Nat.zero_add _).trans_le (Source.fetchHanded_of_fetch hfetch).length_le

/-! ## The whole run -/

/-- **A reader asks its source as late as it can.**  Making it asks once.  After any run of calls:
one more call asks once if it takes the last loaded byte of a source that has not ended, and leaves
the source alone otherwise; the reader has made the first `k` calls of its source, and once one of
them was answered with nothing, no call whatever makes another; what the source has handed out is at
most a chunk past the furthest position; and what it has left is all beyond the end of the
window. -/
theorem asks_only_to_refill (h : ofSource source config = .ok r₀) (calls : List Call) :
    let r := Cursor.performAll calls r₀
    (∃ j, Source.Asks config.chunkSize j source r₀.source) ∧
      (∀ c, Refills c r →
        ∃ j, Source.Asks config.chunkSize j r.source (Cursor.perform c r).2.source) ∧
      (∀ c, ¬ Refills c r → (Cursor.perform c r).2.source = r.source) ∧
      (∃ k, r.source = source.after config.chunkSize k ∧ r.source.reads = source.reads + k ∧
        ∀ i < k, source.answer config.chunkSize i = .ok [] →
          ∀ more, (Cursor.performAll more r).source = r.source) ∧
      r.source.loaded ≤ source.loaded + (furthest calls r₀ + config.chunkSize) ∧
      r.source.rest = source.rest.drop (r.base + r.window.size) := by
  intro r
  have hstart := invariant_ofSource h
  have hinv : Invariant source config r := ((Reachable.start h).performAll calls).invariant
  obtain ⟨j, hasks, hheard₀⟩ := heard_ofSource h
  obtain ⟨k, hheard⟩ := hheard₀.performAll calls hstart
  refine ⟨⟨j, hasks⟩, fun c => hinv.asks_of_refills, fun c => hinv.source_of_not_refills,
    ⟨k, hheard.source_eq, ?_, fun i hi hempty more => ?_⟩, ?_, hinv.rest_eq⟩
  · rw [hheard.source_eq, Source.reads_after]
  · exact hinv.source_performAll more (hheard.ended i hi hempty)
  · have hrun : r.loadedEnd ≤ furthest calls r₀ + config.chunkSize :=
      (hstart.loadedEnd_performAll_le calls).trans <|
        Nat.max_le.2 ⟨Nat.le_add_left_of_le (loadedEnd_ofSource_le h), Nat.le_refl _⟩
    rw [hinv.loaded_eq]
    exact Nat.add_le_add_left hrun _

/-- One call is interrupted and one fails; the sixth, for the last byte, is answered with nothing,
and there is no seventh. -/
theorem stutteringReader_asks_only_to_refill :
    let r := Cursor.performAll (List.replicate 5 .next) stutteringReader
    ofSource stutteringSource ⟨2, some 1⟩ = .ok stutteringReader ∧
      (∃ j, Source.Asks 2 j stutteringSource stutteringReader.source) ∧
      Refills .next stutteringReader ∧
      (∃ j, Source.Asks 2 j stutteringReader.source
        (Cursor.perform .next stutteringReader).2.source) ∧
      r.source.reads = 6 ∧ stutteringSource.answer 2 5 = .ok [] ∧
      ∀ more, (Cursor.performAll more r).source = r.source := by
  intro r
  obtain ⟨hmade, hasks, -⟩ := asks_only_to_refill ofSource_stutteringSource []
  obtain ⟨-, -, -, ⟨k, -, hreads, hended⟩, -⟩ :=
    asks_only_to_refill ofSource_stutteringSource (List.replicate 5 .next)
  have hrefills : Refills .next stutteringReader := ⟨rfl, rfl, rfl⟩
  have hk : 6 = k := hreads.trans (Nat.zero_add k)
  exact ⟨ofSource_stutteringSource, hmade, hrefills, hasks .next hrefills, rfl, rfl,
    hended 5 (hk ▸ Nat.lt_succ_self 5) rfl⟩

end Backtrack.Reader
