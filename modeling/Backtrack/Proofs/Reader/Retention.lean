import Backtrack.Proofs.Action.Inversion
import Backtrack.Proofs.Cursor.Honest
import Backtrack.Proofs.Parser.Trace
import Backtrack.Proofs.Reader.Visited

/-!
# Proofs/Reader/Retention — how far a reader may go and still come back

    base ────▸ start ──────── at most w bytes ────────▸ furthest

A reader forgets when it refills, and counts the bytes to keep from where it is *then*.  So a start
is safe as long as the cursor is never more than `w` past it, wherever it goes in between
(`Invariant.base_performAll_le`).  Every position up to the furthest one is visited, so what was
taken on the way can be taken again, and the source is not asked for it.

An attempt within that bound is undone.  If it still ends in a refusal to return to its start, the
parser has made the refusal up.
-/

namespace Backtrack

/-! ## How far calls lead, and what they take where -/

namespace Cursor

variable {σ τ : Type} [Cursor σ τ]

/-- **The furthest position** the cursor is at during some calls. -/
def furthest : List Call → σ → Nat
  | [], s => pos s
  | c :: calls, s => max (pos s) (furthest calls (perform c s).2)

/-- **The symbols taken by a run of calls, each with its position.** -/
def takenAt : List Call → σ → List (Nat × τ)
  | [], _ => []
  | c :: calls, s => (taken? c s).toList.map (pos s, ·) ++ takenAt calls (perform c s).2

theorem pos_le_furthest (calls : List Call) (s : σ) : pos s ≤ furthest calls s := by
  cases calls with
  | nil => exact Nat.le_refl _
  | cons c calls => exact Nat.le_max_left _ _

/-- **Skipping is taking again and again**, as far as it works out. -/
theorem Honest.replicate_next_of_skip (h : Honest σ) {k : Nat} {s s' : σ}
    (hskip : skip k s = (.ok (), s')) :
    performAll (List.replicate k .next) s = s' ∧
      furthest (List.replicate k .next) s = pos s + k := by
  induction k generalizing s with
  | zero =>
    cases hskip
    exact ⟨rfl, rfl⟩
  | succ k ih =>
    obtain ⟨x, s₁, hnext, hskip⟩ := skip_succ_eq_ok_iff.1 hskip
    have hperform : (perform .next s).2 = s₁ := congrArg Prod.snd hnext
    have hpos := h.pos_next hnext
    obtain ⟨hall, hfurthest⟩ := ih hskip
    rw [List.replicate_succ, furthest, hperform, hfurthest, hpos]
    refine ⟨?_, by omega⟩
    rw [performAll, List.foldl_cons, hperform]
    exact hall

end Cursor

namespace Reader

open Cursor (furthest takenAt)

variable {source : Source} {config : ReaderConfig} {r r' : Reader} {p w : Nat}

/-! ## What is kept -/

theorem base_trim_le (hw : r.config.maxRetained = some w) :
    r.trim.base ≤ max r.base (r.pos - w) := by
  obtain ⟨heq, -⟩ | ⟨w', hw', -, heq⟩ := trim_cases r
  · rw [heq]
    exact Nat.le_max_left _ _
  · obtain rfl : w' = w := Option.some.inj (hw'.symm.trans hw)
    rw [heq]
    exact Nat.le_max_right _ _

/-- **One call forgets nothing but what it leaves more than `w` behind.** -/
theorem base_perform_le (hw : r.config.maxRetained = some w) (c : Call) :
    (Cursor.perform c r).2.base ≤ max r.base ((Cursor.perform c r).2.pos - w) := by
  cases c with
  | atEnd => exact Nat.le_max_left _ _
  | pos => exact Nat.le_max_left _ _
  | peek => exact Nat.le_max_left _ _
  | next =>
    change r.next.2.base ≤ max r.base (r.next.2.pos - w)
    have htaken := taken_next r
    generalize r.next = out at htaken
    cases htaken with
    | ended => exact Nat.le_max_left _ _
    | kept => exact Nat.le_max_left _ _
    | refilled =>
      rw [pos_trim]
      exact base_trim_le hw
    | failed => exact Nat.le_max_left _ _
  | back n =>
    change (r.back n).2.base ≤ max r.base ((r.back n).2.pos - w)
    obtain ⟨-, heq⟩ | ⟨-, -, heq⟩ | ⟨-, -, heq⟩ := back_cases n r <;> rw [heq] <;>
      exact Nat.le_max_left _ _

/-- What is kept before a call that leaves the cursor within `w` is kept after it. -/
theorem Invariant.base_perform_le_of_le (h : Invariant source config r)
    (hw : config.maxRetained = some w) (hbase : r.base ≤ p) {c : Call}
    (hpos : (Cursor.perform c r).2.pos ≤ p + w) : (Cursor.perform c r).2.base ≤ p := by
  have hstep := base_perform_le (r := r) (h.config_eq ▸ hw) c
  omega

/-- **A position is kept as long as the cursor is never more than `w` past it.** -/
theorem Invariant.base_performAll_le (h : Invariant source config r)
    (hw : config.maxRetained = some w) (hbase : r.base ≤ p) {calls : List Call}
    (hfar : furthest calls r ≤ p + w) : (Cursor.performAll calls r).base ≤ p := by
  induction calls generalizing r with
  | nil => exact hbase
  | cons c calls ih =>
    have hrest : furthest calls (Cursor.perform c r).2 ≤ p + w :=
      Nat.le_trans (Nat.le_max_right _ _) hfar
    have hpos := Nat.le_trans (Cursor.pos_le_furthest calls _) hrest
    exact ih (h.perform c) (h.base_perform_le_of_le hw hbase hpos) hrest

/-- **The furthest position has been visited.** -/
theorem Invariant.visited_furthest (h : Invariant source config r) (calls : List Call) :
    Visited source config (furthest calls r) (Cursor.performAll calls r) := by
  induction calls generalizing r with
  | nil => exact h.visited
  | cons c calls ih =>
    rw [furthest]
    rcases Nat.le_total (furthest calls (Cursor.perform c r).2) (Cursor.pos r) with hle | hle
    · rw [Nat.max_eq_left hle]
      exact h.visited.performAll (c :: calls)
    · rw [Nat.max_eq_right hle]
      exact ih (h.perform c)

/-! ## What is taken -/

/-- **A call moves forward only by taking the byte delivered at the position**, and then by one. -/
theorem Invariant.taken?_cases (h : Invariant source config r) (c : Call) :
    (Cursor.taken? c r = none ∧ (Cursor.perform c r).2.pos ≤ r.pos) ∨
      ∃ b, Cursor.taken? c r = some b ∧ (source.delivered config.chunkSize)[r.pos]? = some b ∧
        (Cursor.perform c r).2.pos = r.pos + 1 := by
  cases c with
  | atEnd => exact .inl ⟨rfl, Nat.le_refl _⟩
  | pos => exact .inl ⟨rfl, Nat.le_refl _⟩
  | peek => exact .inl ⟨rfl, Nat.le_refl _⟩
  | next =>
    change (r.next.1.toOption = none ∧ r.next.2.pos ≤ r.pos) ∨
      ∃ b, r.next.1.toOption = some b ∧ _ ∧ r.next.2.pos = r.pos + 1
    rw [← h.current?_eq_getElem?]
    have htaken := taken_next r
    generalize r.next = out at htaken
    cases htaken with
    | ended => exact .inl ⟨rfl, Nat.le_refl _⟩
    | kept hcur => exact .inr ⟨_, rfl, hcur, rfl⟩
    | refilled hcur => exact .inr ⟨_, rfl, hcur, pos_trim _⟩
    | failed => exact .inl ⟨rfl, Nat.le_refl _⟩
  | back n =>
    refine .inl ⟨rfl, ?_⟩
    change (r.back n).2.pos ≤ r.pos
    obtain ⟨-, heq⟩ | ⟨-, -, heq⟩ | ⟨-, -, heq⟩ := back_cases n r <;> rw [heq]
    exact Nat.sub_le _ _

theorem Invariant.of_mem_takenAt (h : Invariant source config r) {calls : List Call} {q : Nat}
    {b : UInt8} (hmem : (q, b) ∈ takenAt calls r) :
    q < furthest calls r ∧ (source.delivered config.chunkSize)[q]? = some b := by
  induction calls generalizing r with
  | nil => exact absurd hmem List.not_mem_nil
  | cons c calls ih =>
    rw [takenAt, List.mem_append] at hmem
    rw [furthest]
    rcases hmem with hmem | hmem
    · rcases h.taken?_cases c with ⟨hnone, -⟩ | ⟨b', hsome, hget, hpos⟩
      · rw [hnone] at hmem
        exact absurd hmem List.not_mem_nil
      · rw [hsome] at hmem
        cases List.mem_singleton.1 hmem
        have hreached : r.pos + 1 ≤ furthest calls (Cursor.perform c r).2 :=
          hpos ▸ Cursor.pos_le_furthest calls (Cursor.perform c r).2
        exact ⟨Nat.lt_of_lt_of_le hreached (Nat.le_max_right _ _), hget⟩
    · obtain ⟨hlt, hget⟩ := ih (h.perform c) hmem
      exact ⟨Nat.lt_of_lt_of_le hlt (Nat.le_max_right _ _), hget⟩

/-- On the way to the furthest position no byte is left out. -/
theorem Invariant.exists_mem_takenAt (h : Invariant source config r) {calls : List Call} {q : Nat}
    (hle : r.pos ≤ q) (hlt : q < furthest calls r) : ∃ b, (q, b) ∈ takenAt calls r := by
  induction calls generalizing r with
  | nil => exact absurd hlt (Nat.not_lt.2 hle)
  | cons c calls ih =>
    rw [furthest] at hlt
    have hrest : q < furthest calls (Cursor.perform c r).2 := by
      change Cursor.pos r ≤ q at hle
      omega
    simp only [takenAt, List.mem_append, exists_or]
    rcases h.taken?_cases c with ⟨-, hpos⟩ | ⟨b, hsome, -, hpos⟩
    · exact .inr (ih (h.perform c) (Nat.le_trans hpos hle) hrest)
    · by_cases hq : q = r.pos
      · subst hq
        refine .inl ⟨b, ?_⟩
        rw [hsome]
        exact List.mem_singleton_self _
      · exact .inr (ih (h.perform c) (by omega) hrest)

/-- **From the start to the furthest position, the bytes taken are those delivered there.** -/
theorem Invariant.mem_takenAt_iff (h : Invariant source config r) {calls : List Call} {q : Nat}
    {b : UInt8} (hle : r.pos ≤ q) : (q, b) ∈ takenAt calls r ↔
      q < furthest calls r ∧ (source.delivered config.chunkSize)[q]? = some b := by
  refine ⟨h.of_mem_takenAt, ?_⟩
  rintro ⟨hlt, hget⟩
  obtain ⟨b', hmem⟩ := h.exists_mem_takenAt hle hlt
  obtain rfl : b = b' := Option.some.inj (hget.symm.trans (h.of_mem_takenAt hmem).2)
  exact hmem

/-! ## Coming back -/

/-- **Some calls have kept their start**: it is in the window; a return to it leaves all but the
position alone; from there every byte up to the furthest position can be taken again, which leaves
all but the position alone too; and these are the bytes the calls have taken there. -/
structure Retains (calls : List Call) (r : Reader) : Prop where
  start_kept : (Cursor.performAll calls r).windowStart ≤ r.pos
  rewind_eq : Cursor.rewind r.pos (Cursor.performAll calls r)
    = (.ok (), { Cursor.performAll calls r with pos := r.pos })
  replay_eq : Cursor.performAll (List.replicate (furthest calls r - r.pos) .next)
      { Cursor.performAll calls r with pos := r.pos }
    = { Cursor.performAll calls r with pos := furthest calls r }
  replay_same : ∀ q b, r.pos ≤ q →
    ((q, b) ∈ takenAt (List.replicate (furthest calls r - r.pos) .next)
        { Cursor.performAll calls r with pos := r.pos } ↔ (q, b) ∈ takenAt calls r)

/-- Keeping the start in the window is all it takes. -/
theorem Invariant.retains (h : Invariant source config r) {calls : List Call}
    (hbase : (Cursor.performAll calls r).base ≤ r.pos) : Retains calls r := by
  have hle : r.pos ≤ furthest calls r := Cursor.pos_le_furthest calls r
  have hmoved := (h.visited_furthest calls).movedTo hbase hle
  have hend : r.pos + (furthest calls r - r.pos) = furthest calls r := Nat.add_sub_of_le hle
  have hskip := hmoved.skip_eq (Nat.le_of_eq hend)
  obtain ⟨hall, hfurthest⟩ := Reader.honest.replicate_next_of_skip hskip
  refine ⟨hbase, (h.visited.performAll calls).rewind_eq hbase, ?_, fun q b hq => ?_⟩
  · rw [hall]
    exact congrArg (fun q => { Cursor.performAll calls r with pos := q }) hend
  · rw [hmoved.toInvariant.mem_takenAt_iff hq, h.mem_takenAt_iff hq, hfurthest]
    exact and_congr_left fun _ => Iff.of_eq (congrArg (q < ·) hend)

/-- **As many bytes as were taken can be stepped back over**, if the start is kept. -/
theorem Invariant.back_of_skip (h : Invariant source config r) {k : Nat}
    (hskip : Cursor.skip k r = (.ok (), r')) (hbase : r'.base ≤ r.pos) :
    Cursor.back k r' = (.ok (), { r' with pos := r.pos }) := by
  obtain ⟨rfl, -⟩ := Reader.honest.replicate_next_of_skip hskip
  have hpos := Reader.honest.pos_skip hskip
  have hrewind := (h.visited.performAll (List.replicate k .next)).rewind_eq hbase
  have hmove := (Action.moveTo_of_le (hpos ▸ Nat.le_add_right _ _)).symm.trans
    (Cursor.rewind_eq_ok_iff.1 hrewind)
  have hk : Cursor.pos r + k - r.pos = k := Nat.add_sub_cancel_left r.pos k
  rwa [hpos, hk] at hmove

theorem Invariant.base_le_of_skip (h : Invariant source config r)
    (hw : config.maxRetained = some w) {k : Nat} (hk : k ≤ w)
    (hskip : Cursor.skip k r = (.ok (), r')) : r'.base ≤ r.pos := by
  obtain ⟨rfl, hfurthest⟩ := Reader.honest.replicate_next_of_skip hskip
  refine h.base_performAll_le hw h.base_le_pos ?_
  rw [hfurthest]
  exact Nat.add_le_add_left hk _

/-- A reader is made with a configuration that is free of faults. -/
theorem Reachable.fault?_eq_none (h : Reachable source config r) : config.fault? = none := by
  induction h with
  | start h => exact (ofSource_eq_ok_iff.1 h).1
  | call _ _ ih => exact ih

/-- **The byte just taken is kept**, whatever the configuration. -/
theorem Invariant.base_le_of_next (h : Invariant source config r) (hvalid : config.fault? = none)
    {b : UInt8} (hnext : Cursor.next r = (.ok b, r')) : r'.base ≤ r.pos := by
  cases hw : config.maxRetained with
  | none =>
    have hr' : r.next.2 = r' := congrArg Prod.snd hnext
    have hbase := h.next.base_eq_zero hw
    rw [hr'] at hbase
    exact hbase ▸ Nat.zero_le _
  | some w =>
    -- a window that keeps nothing is a fault
    have hkeeps := (config.fault?_eq_none_iff.1 hvalid).2.2
    have hpos : 1 ≤ w := Nat.pos_of_ne_zero fun hzero => hkeeps (hzero ▸ hw)
    exact h.base_le_of_skip hw hpos (Cursor.skip_succ_eq_ok_iff.2 ⟨b, r', hnext, rfl⟩)

/-- **…and can be put back.** -/
theorem Reachable.back_of_next (h : Reachable source config r) {b : UInt8}
    (hnext : Cursor.next r = (.ok b, r')) :
    Cursor.back 1 r' = (.ok (), { r' with pos := r.pos }) := by
  have hskip : Cursor.skip 1 r = (.ok (), r') := Cursor.skip_succ_eq_ok_iff.2 ⟨b, r', hnext, rfl⟩
  exact h.invariant.back_of_skip hskip (h.invariant.base_le_of_next h.fault?_eq_none hnext)

/-! ## Refusals -/

theorem skip_refused {k : Nat} {cause : ParseError}
    (h : Cursor.skip k r = (.error (.parse cause), r')) :
    r'.current? = none ∧ r'.pos < r.pos + k := by
  induction k generalizing r with
  | zero => cases h
  | succ k ih =>
    obtain hnext | ⟨b, r₁, hnext, hskip⟩ := Cursor.skip_succ_eq_error_iff.1 h
    · have htaken := taken_next r
      rw [show r.next = _ from hnext] at htaken
      cases htaken with
      | ended hcur => exact ⟨hcur, by omega⟩
    · have hpos : r₁.pos = r.pos + 1 := Reader.honest.pos_next hnext
      obtain ⟨hcur, hlt⟩ := ih hskip
      exact ⟨hcur, by omega⟩

/-- **No move to a visited position that is kept is refused.** -/
theorem Visited.moveTo_ne_refused (h : Visited source config p r) (hbase : r.base ≤ p)
    (r₀ : Reader) (cause : ParseError) : Cursor.moveTo p r₀ ≠ (.error (.parse cause), r) := by
  intro hmove
  rw [Cursor.moveTo] at hmove
  split at hmove
  · next hle =>
    change r₀.back (r₀.pos - p) = _ at hmove
    change p ≤ r₀.pos at hle
    obtain ⟨hn, heq⟩ | ⟨-, hwindow, heq⟩ | ⟨-, -, heq⟩ := back_cases (r₀.pos - p) r₀
    · omega
    · cases heq.symm.trans hmove
      omega
    · cases heq.symm.trans hmove
  · next hlt =>
    -- the move went forward and came to the end of what is loaded, which is not before `p`
    change ¬ p ≤ r₀.pos at hlt
    obtain ⟨hcur, hpos⟩ := skip_refused hmove
    change r.pos < r₀.pos + (p - r₀.pos) at hpos
    have hend := h.current?_eq_none_iff.1 hcur
    have := h.le_end
    omega

/-- No call of a reader is answered with a refusal to return. -/
theorem perform_ne_restore (c : Call) (r : Reader) (target : Nat) (cause : ParseError) :
    (Cursor.perform c r).1 ≠ .error (.stream (.restore target cause)) := by
  intro h
  cases c with
  | atEnd => cases h
  | pos => cases h
  | peek =>
    change r.peek.map _ = _ at h
    rw [peek] at h
    cases hcur : r.current? <;> rw [hcur] at h <;> cases h
  | next =>
    change r.next.1.map _ = _ at h
    have htaken := taken_next r
    generalize r.next = out at htaken h
    cases htaken <;> cases h
  | back n =>
    change (r.back n).1.map _ = _ at h
    obtain ⟨-, heq⟩ | ⟨-, -, heq⟩ | ⟨-, -, heq⟩ := back_cases n r <;> rw [heq] at h <;> cases h

/-- **Within `w` of a visited position that is kept, a refusal to return to it is made up by the
parser.** -/
theorem eq_raised_of_restore {log : List (Event UInt8)} (h : Recounts r log r')
    (hw : config.maxRetained = some w) (hvisited : Visited source config p r) (hbase : r.base ≤ p)
    (hfar : furthest (log.filterMap Event.call?) r ≤ p + w) {ev : Event UInt8} (hmem : ev ∈ log)
    {cause : ParseError} (hev : ev.fatal? = some (.restore p cause)) :
    ev = .raised (.stream (.restore p cause)) := by
  induction h with
  | nil => exact absurd hmem List.not_mem_nil
  | @called c r r' log hrest ih =>
    rcases List.mem_cons.1 hmem with rfl | hmem
    · exfalso
      rcases hans : (Cursor.perform c r).1 with (e | e) | a
      · simp [hans, Event.fatal?] at hev
      · simp only [hans, Event.fatal?, Option.some.injEq] at hev
        exact perform_ne_restore c r p cause (hev ▸ hans)
      · simp [hans, Event.fatal?] at hev
    · have hfar' : furthest (log.filterMap Event.call?) (Cursor.perform c r).2 ≤ p + w :=
        Nat.le_trans (Nat.le_max_right _ _) hfar
      have hpos := Nat.le_trans (Cursor.pos_le_furthest _ _) hfar'
      have hbase' := hvisited.toInvariant.base_perform_le_of_le hw hbase hpos
      exact ih (hvisited.perform c) hbase' hfar' hmem
  | @raised f r r' log hrest ih =>
    rcases List.mem_cons.1 hmem with rfl | hmem
    · cases f with
      | parse e => cases hev
      | stream e => rw [Option.some.inj hev]
    · exact ih hvisited hbase hfar hmem
  | @refused target cause' r₀ r r' log hmove hrest ih =>
    rcases List.mem_cons.1 hmem with rfl | hmem
    · cases hev
      exact absurd hmove (hvisited.moveTo_ne_refused hbase r₀ cause)
    · exact ih hvisited hbase hfar hmem

/-! ## Attempts -/

section Attempt

variable {N : Type → Type} {α : Type} {G : Grammar N UInt8} {n : Nat} {F : Parser N UInt8 α}

/-- **An attempt that stays within `w` of its start is undone.** -/
theorem Invariant.attempt_undone (h : Invariant source config r) (hw : config.maxRetained = some w)
    (hfar : furthest (G.trace n F r).calls r ≤ r.pos + w) {e : ParseError}
    (hrun : G.run n F r = some (.error (.parse e), r')) :
    G.run n (.attempt F) r
      = some (.error (.parse ⟨e.message, r.pos⟩), { r' with pos := r.pos }) := by
  obtain rfl := G.performAll_calls_trace hrun
  have hbase := h.base_performAll_le hw h.base_le_pos hfar
  exact Action.attempt_eq_parse_iff.2 ⟨e, _, hrun, (h.retains hbase).rewind_eq, rfl⟩

/-- **If it ends in a refusal to return to its start, the parser has made the refusal up.** -/
theorem Invariant.raised_of_attempt_restore (h : Invariant source config r)
    (hw : config.maxRetained = some w) (hfar : furthest (G.trace n F r).calls r ≤ r.pos + w)
    {cause : ParseError}
    (hrun : G.run n (.attempt F) r = some (.error (.stream (.restore r.pos cause)), r')) :
    .raised (.stream (.restore r.pos cause)) ∈ (G.trace n F r).log := by
  rcases Action.attempt_eq_stream_iff.1 hrun with hF | ⟨e, r₁, hF, hrewind⟩
  · have hsound := G.sound_trace n F r
    obtain ⟨ev, hmem, hev⟩ := hsound.arose _ r' ((G.outcome_trace n F r).trans hF)
    obtain ⟨r₁, hrecounts, -⟩ := hsound.recounts
    rwa [← eq_raised_of_restore hrecounts hw h.visited h.base_le_pos hfar hmem hev]
  · obtain rfl := G.performAll_calls_trace hF
    have hkept := h.retains (h.base_performAll_le hw h.base_le_pos hfar)
    exact nomatch hkept.rewind_eq.symm.trans hrewind

end Attempt

/-! ## The guarantee -/

/-- **What a bounded window is sure to keep**, in every state calls lead to.  If `w` bytes are kept:
calls that never lead more than `w` past the start keep it; a step back over up to `w` bytes taken
in a row works out; an attempt that never moves more than `w` past its start is undone, and ends in
a refusal to return there only if the parser raises one itself.  And whatever is kept, the byte just
taken can be put back. -/
theorem reachable_retains (h : Reachable source config r) :
    (∀ w, config.maxRetained = some w →
      (∀ calls, furthest calls r ≤ r.pos + w → Retains calls r) ∧
      (∀ k r', k ≤ w → Cursor.skip k r = (.ok (), r') →
        Cursor.back k r' = (.ok (), { r' with pos := r.pos })) ∧
      ∀ {N : Type → Type} {α : Type} (G : Grammar N UInt8) (n : Nat) (F : Parser N UInt8 α),
        furthest (G.trace n F r).calls r ≤ r.pos + w →
        (∀ e r', G.run n F r = some (.error (.parse e), r') →
          G.run n (.attempt F) r
            = some (.error (.parse ⟨e.message, r.pos⟩), { r' with pos := r.pos })) ∧
        ∀ cause r', G.run n (.attempt F) r = some (.error (.stream (.restore r.pos cause)), r') →
          .raised (.stream (.restore r.pos cause)) ∈ (G.trace n F r).log) ∧
    ∀ b r', Cursor.next r = (.ok b, r') →
      Cursor.back 1 r' = (.ok (), { r' with pos := r.pos }) := by
  have hinv := h.invariant
  refine ⟨fun w hw => ⟨fun calls hfar => ?_, fun k r' hk hskip => ?_, fun G n F hfar => ⟨?_, ?_⟩⟩,
    ?_⟩
  · exact hinv.retains (hinv.base_performAll_le hw hinv.base_le_pos hfar)
  · exact hinv.back_of_skip hskip (hinv.base_le_of_skip hw hk hskip)
  · exact fun e r' hrun => hinv.attempt_undone hw hfar hrun
  · exact fun cause r' hrun => hinv.raised_of_attempt_restore hw hfar hrun
  · exact fun b r' hnext => h.back_of_next hnext

/-- In the trimmed window taking one more byte refills and forgets up to the very start, and no
further. -/
theorem trimmedReader_retains :
    let G : Grammar (fun _ => Empty) UInt8 := ⟨fun r => nomatch r⟩
    let ended : Reader := ⟨⟨[], [], 6, 4⟩, ⟨2, some 1⟩, #[100], 3, 4, true⟩
    let calls : List Call := [.next, .next, .back 1, .peek, .next, .back 2]
    let taking : Parser (fun _ => Empty) UInt8 Unit := takesOne
    (furthest calls trimmedReader = 4 ∧ Retains calls trimmedReader) ∧
      (Cursor.skip 1 trimmedReader = (.ok (), ended) ∧
        Cursor.back 1 ended = (.ok (), { ended with pos := 3 })) ∧
      G.run 1 (.attempt taking) trimmedReader
        = some (.error (.parse ⟨"gave up", 3⟩), { ended with pos := 3 }) ∧
      (∀ cause r', G.run 1 (.attempt taking) trimmedReader
        ≠ some (.error (.stream (.restore 3 cause)), r')) ∧
      Cursor.next trimmedReader = (.ok 100, ended) ∧
        Cursor.back 1 ended = (.ok (), { ended with pos := 3 }) := by
  intro G ended calls taking
  obtain ⟨hkept, hunget⟩ := reachable_retains reachable_trimmedReader
  obtain ⟨hcalls, hback, hattempt⟩ := hkept 1 rfl
  obtain ⟨hundone, hraised⟩ := hattempt G 1 taking (by decide)
  refine ⟨⟨rfl, hcalls calls (by decide)⟩, ⟨rfl, hback 1 ended (by decide) rfl⟩,
    hundone ⟨"gave up", 4⟩ ended rfl, fun cause r' hrun => ?_, rfl, hunget 100 ended rfl⟩
  have hlog : (G.trace 1 taking trimmedReader).log = [.called .next (.ok (.symbol 100))] := rfl
  have hmem := hraised cause r' hrun
  rw [hlog, List.mem_singleton] at hmem
  cases hmem

end Reader

end Backtrack
