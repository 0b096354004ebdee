import Backtrack.Proofs.Action.Inversion
import Backtrack.Proofs.Cursor.Honest
import Backtrack.Proofs.Parser.Trace
import Backtrack.Proofs.Reader.Visited

/-!
# Proofs/Backend/Backtracking — an attempt, measured by what is attempted

    s ──p──▸ value            ⟹   s ──attempt p──▸ value             the same
    s ──p──▸ fatal            ⟹   s ──attempt p──▸ fatal             the same
    s ──p──▸ failure, s₁      ⟹   s ──attempt p──▸ failure about s,  s₁ at the start again
                               or  s ──attempt p──▸ restore,          s₁

Whatever `p` does to the cursor, it does by calls.  On a cursor over loaded data no call loses a
position, so the return always works out.  On a reader it works out exactly if the start is still in
the window: the start has been visited, so that even a return *forward*, after a parser that stepped
back below its own start, asks nothing of the source.
-/

namespace Backtrack

variable {N : Type → Type} {σ τ α β : Type}

/-- **What an attempt of `p` at `s` does, by what `p` alone does there.**  `kept` says whether the
start can still be returned to, and `rest` is what a cursor consists of besides its position. -/
structure Undoes [Cursor σ τ] (G : Grammar N τ) (p : Parser N τ α) (s : σ) (kept : σ → Prop)
    (rest : σ → β) : Prop where
  undone : ∀ {e s₁}, G.Yields p s (.error (.parse e)) s₁ → kept s₁ →
    ∃ s₂, G.Yields (.attempt p) s (.error (.parse ⟨e.message, Cursor.pos s⟩)) s₂ ∧
      Cursor.pos s₂ = Cursor.pos s ∧ rest s₂ = rest s₁
  refused : ∀ {e s₁}, G.Yields p s (.error (.parse e)) s₁ → ¬ kept s₁ →
    ∃ cause, Cursor.back (Cursor.pos s₁ - Cursor.pos s) s₁ = (.error (.parse cause), s₁) ∧
      G.Yields (.attempt p) s (.error (.stream (.restore (Cursor.pos s) cause))) s₁
  passed : ∀ {x s₁}, G.Yields p s x s₁ → (∀ e, x ≠ .error (.parse e)) →
    G.Yields (.attempt p) s x s₁

/-- **All it takes is to know how a cursor returns** from where calls can lead it. -/
theorem undoes_of_rewind [Cursor σ τ] (G : Grammar N τ) (p : Parser N τ α) {s : σ}
    {kept : σ → Prop} {rest : σ → β}
    (hkept : ∀ calls, kept (Cursor.performAll calls s) →
      ∃ s₂, Cursor.rewind (Cursor.pos s) (Cursor.performAll calls s) = (.ok (), s₂) ∧
        Cursor.pos s₂ = Cursor.pos s ∧ rest s₂ = rest (Cursor.performAll calls s))
    (hlost : ∀ calls, ¬ kept (Cursor.performAll calls s) →
      ∃ cause, Cursor.back (Cursor.pos (Cursor.performAll calls s) - Cursor.pos s)
          (Cursor.performAll calls s) = (.error (.parse cause), Cursor.performAll calls s) ∧
        Cursor.rewind (Cursor.pos s) (Cursor.performAll calls s)
          = (.error (.stream (.restore (Cursor.pos s) cause)), Cursor.performAll calls s)) :
    Undoes G p s kept rest where
  undone {e s₁} h hk := by
    obtain ⟨calls, rfl⟩ := h.exists_performAll
    obtain ⟨s₂, hrewind, hpos, hrest⟩ := hkept calls hk
    obtain ⟨n, hn⟩ := h
    exact ⟨s₂, ⟨n, Action.attempt_eq_parse_iff.2 ⟨e, _, hn, hrewind, rfl⟩⟩, hpos, hrest⟩
  refused {e s₁} h hk := by
    obtain ⟨calls, rfl⟩ := h.exists_performAll
    obtain ⟨cause, hback, hrewind⟩ := hlost calls hk
    obtain ⟨n, hn⟩ := h
    exact ⟨cause, hback, n, Action.attempt_of_refused hn hrewind⟩
  passed {x s₁} h hx := by
    obtain ⟨n, hn⟩ := h
    exact ⟨n, Action.attempt_of_ne hn hx⟩

/-! ## Cursors over loaded data -/

namespace Cursor.Indexed

variable [Cursor σ τ] {items : σ → List τ} (h : Indexed items)
include h

theorem items_perform (c : Call) (s : σ) : items (perform c s).2 = items s := by
  cases c with
  | atEnd => rfl
  | pos => rfl
  | peek => rw [perform, h.peek_eq]
  | next => exact h.items_next s
  | back n => exact h.items_back n s

theorem items_performAll (calls : List Call) (s : σ) : items (performAll calls s) = items s := by
  induction calls generalizing s with
  | nil => rfl
  | cons c calls ih => exact (ih (perform c s).2).trans (h.items_perform c s)

/-- No run changes the data. -/
theorem items_of_yields {G : Grammar N τ} {p : Parser N τ α} {s s' : σ} {x : Except Failure α}
    (hyields : G.Yields p s x s') : items s' = items s := by
  obtain ⟨calls, rfl⟩ := hyields.exists_performAll
  exact h.items_performAll calls s

theorem exists_skip {k : Nat} {s : σ} (hk : pos s + k ≤ (items s).length) :
    ∃ s', skip k s = (.ok (), s') ∧ pos s' = pos s + k ∧ items s' = items s := by
  induction k generalizing s with
  | zero => exact ⟨s, rfl, rfl, rfl⟩
  | succ k ih =>
    have hnext := h.next_eq s
    have hitems := h.items_next s
    rw [nextAt, List.getElem?_eq_getElem (by omega)] at hnext
    obtain ⟨hok, hpos⟩ := Prod.mk.inj hnext
    obtain ⟨s', hskip, hpos', hitems'⟩ := ih (s := (next s).2) (by rw [hpos, hitems]; omega)
    refine ⟨s', ?_, by omega, hitems'.trans hitems⟩
    exact skip_succ_eq_ok_iff.2 ⟨_, (next s).2, Prod.ext hok rfl, hskip⟩

/-- **Every position within the data can be returned to.** -/
theorem exists_rewind {target : Nat} {s : σ} (htarget : target ≤ (items s).length) :
    ∃ s', rewind target s = (.ok (), s') ∧ pos s' = target ∧ items s' = items s := by
  simp only [rewind_eq_ok_iff]
  by_cases hle : target ≤ pos s
  · have hback := h.back_eq (pos s - target) s
    rw [backFrom, if_pos (Nat.sub_le _ _)] at hback
    obtain ⟨hok, hpos⟩ := Prod.mk.inj hback
    refine ⟨(back (pos s - target) s).2, ?_, by omega, h.items_back _ s⟩
    rw [Action.moveTo_of_le hle]
    exact Prod.ext hok rfl
  · obtain ⟨s', hskip, hpos, hitems⟩ := h.exists_skip (s := s) (k := target - pos s) (by omega)
    refine ⟨s', ?_, by omega, hitems⟩
    rw [Action.moveTo_of_not_le hle]
    exact hskip

/-- **An attempt over loaded data is always undone.** -/
theorem undoes (G : Grammar N τ) (p : Parser N τ α) {s : σ} (hpos : pos s ≤ (items s).length) :
    Undoes G p s (fun _ => True) items := by
  refine undoes_of_rewind G p (fun calls _ => ?_) fun calls hk => absurd trivial hk
  refine h.exists_rewind ?_
  rw [h.items_performAll]
  exact hpos

end Cursor.Indexed

theorem ArrayCursor.pos_le_length (m : ArrayCursor τ) : Cursor.pos m ≤ m.toList.length := m.pos_le

theorem ListCursor.pos_le_length (l : ListCursor τ) : Cursor.pos l ≤ l.toList.length := by
  change l.pos ≤ _
  rw [toList, List.length_append, List.length_reverse, l.pos_eq]
  exact Nat.le_add_right _ _

/-! ## Readers -/

/-- All of a reader but its position. -/
def Reader.apart (r : Reader) : Source × ReaderConfig × Array UInt8 × Nat × Bool :=
  (r.source, r.config, r.window, r.base, r.exhausted)

/-- **An attempt on a reader is undone exactly if its start is still in the window.** -/
theorem Reader.Reachable.undoes {source : Source} {config : ReaderConfig} {r : Reader}
    (h : Reachable source config r) (G : Grammar N UInt8) (p : Parser N UInt8 α) :
    Undoes G p r (fun r₁ => r₁.windowStart ≤ r.pos) apart := by
  have hvisited := fun calls => h.invariant.visited.performAll calls
  refine undoes_of_rewind G p (fun calls hbase => ?_) fun calls hbase => ?_
  · exact ⟨_, (hvisited calls).rewind_eq hbase, rfl, rfl⟩
  · exact (hvisited calls).rewind_refused (Nat.lt_of_not_le hbase)

/-! ## The law -/

/-- **The exact law of backtracking**, for any parser, in any state of the array cursor and the
zipper, and in any state of a reader that calls lead to. -/
theorem attempt_undoes :
    (∀ {N : Type → Type} {τ α : Type} (G : Grammar N τ) (p : Parser N τ α) (m : ArrayCursor τ),
      Undoes G p m (fun _ => True) ArrayCursor.toList) ∧
    (∀ {N : Type → Type} {τ α : Type} (G : Grammar N τ) (p : Parser N τ α) (l : ListCursor τ),
      Undoes G p l (fun _ => True) ListCursor.toList) ∧
    ∀ {N : Type → Type} {α : Type} (G : Grammar N UInt8) (p : Parser N UInt8 α) {source : Source}
      {config : ReaderConfig} {r : Reader}, Reader.Reachable source config r →
      Undoes G p r (fun r₁ => r₁.windowStart ≤ r.pos) Reader.apart := by
  refine ⟨fun G p m => ?_, fun G p l => ?_, fun G p _ _ _ h => h.undoes G p⟩
  · exact ArrayCursor.indexed.undoes G p m.pos_le_length
  · exact ListCursor.indexed.undoes G p l.pos_le_length

/-- Steps back over one symbol, and fails there. -/
def stepsBelow : Parser (fun _ => Empty) UInt8 Unit := .bind .unget fun _ => .error "too far back"

/-- Takes two symbols, and fails there. -/
def takesTwo : Parser (fun _ => Empty) UInt8 Unit := .bind .next fun _ => takesOne

/-- A reader that loads and keeps one byte. -/
def narrowReader : Reader := ⟨⟨[], [98, 99], 1, 1⟩, ⟨1, some 1⟩, #[97], 0, 0, false⟩

theorem reachable_narrowReader :
    Reader.Reachable (.ofBytes [97, 98, 99] []) ⟨1, some 1⟩ narrowReader := .start rfl

/-- In the trimmed window a return goes forward and works out; in the narrow one the start is
forgotten. -/
theorem stepsBelow_undone_takesTwo_refused :
    let G : Grammar (fun _ => Empty) UInt8 := ⟨fun r => nomatch r⟩
    (∃ r₂, G.Yields (.attempt stepsBelow) Reader.trimmedReader
        (.error (.parse ⟨"too far back", 3⟩)) r₂ ∧
      Cursor.pos r₂ = 3 ∧ r₂.apart = Reader.trimmedReader.apart) ∧
    ∃ cause r₁, G.Yields (.attempt takesTwo) narrowReader (.error (.stream (.restore 0 cause))) r₁ ∧
      Cursor.pos r₁ = 2 := by
  intro G
  have hbelow := attempt_undoes.2.2 G stepsBelow Reader.reachable_trimmedReader
  have htwo := attempt_undoes.2.2 G takesTwo reachable_narrowReader
  have hstepped : G.Yields stepsBelow Reader.trimmedReader (.error (.parse ⟨"too far back", 2⟩))
      { Reader.trimmedReader with pos := 2 } := ⟨1, rfl⟩
  have htook : G.Yields takesTwo narrowReader (.error (.parse ⟨"gave up", 2⟩))
      ⟨⟨[], [], 3, 3⟩, ⟨1, some 1⟩, #[98, 99], 1, 2, false⟩ := ⟨1, rfl⟩
  obtain ⟨r₂, hyields, hpos, hrest⟩ := hbelow.undone hstepped (by decide)
  obtain ⟨cause, -, hrestore⟩ := htwo.refused htook (by decide)
  exact ⟨⟨r₂, hyields, hpos, hrest⟩, cause, _, hrestore, rfl⟩

end Backtrack
