import Backtrack.Cursor.Faulty
import Backtrack.Cursor.Rewind
import Backtrack.Proofs.Cursor.Loaded
import Backtrack.Proofs.Reader.Invariant

/-!
# Proofs/Cursor/Honest — cursors that keep their word about positions

    next, with a symbol       pos ──▸ pos + 1
    back n, done              pos ──▸ pos - n
    a recoverable failure     pos ──▸ pos         and the failure is about pos

That is all a return relies on: where it works out, it ends at its target, whichever way it went
(`Honest.pos_rewind`).  The cursors over loaded data are honest because they are a plain index, the
reader because a failing source leaves the cursor alone, and the faulty cursor because its faults
are told at the position they happen.
-/

namespace Backtrack

namespace Cursor

variable {σ τ : Type} [Cursor σ τ]

/-- **A cursor that keeps its word about positions.**  Nothing is said about fatal failures. -/
structure Honest (σ : Type) {τ : Type} [Cursor σ τ] : Prop where
  peek_refused : ∀ {s s' : σ} {e : ParseError}, peek s = (.error (.parse e), s') →
    pos s' = pos s ∧ e.position = pos s
  next_refused : ∀ {s s' : σ} {e : ParseError}, next s = (.error (.parse e), s') →
    pos s' = pos s ∧ e.position = pos s
  back_refused : ∀ {n : Nat} {s s' : σ} {e : ParseError}, back n s = (.error (.parse e), s') →
    pos s' = pos s ∧ e.position = pos s
  pos_next : ∀ {s s' : σ} {x : τ}, next s = (.ok x, s') → pos s' = pos s + 1
  pos_back : ∀ {n : Nat} {s s' : σ}, back n s = (.ok (), s') → pos s' + n = pos s

/-! ## Where a return leads -/

theorem skip_succ_eq_ok_iff {k : Nat} {s s' : σ} : skip (k + 1) s = (.ok (), s') ↔
    ∃ x s₁, next s = (.ok x, s₁) ∧ skip k s₁ = (.ok (), s') := by
  rw [skip]
  rcases next s with ⟨_ | _, _⟩ <;> simp [and_assoc]

theorem skip_succ_eq_error_iff {k : Nat} {s s' : σ} {f : Failure} :
    skip (k + 1) s = (.error f, s') ↔ next s = (.error f, s') ∨
      ∃ x s₁, next s = (.ok x, s₁) ∧ skip k s₁ = (.error f, s') := by
  rw [skip]
  rcases next s with ⟨_ | _, _⟩ <;> simp [and_assoc]

/-- **Moves are counted** from the cursors that are `kept`, and taking a symbol leads to such a
cursor again. -/
structure Counts (kept : σ → Prop) : Prop where
  kept_next : ∀ {s : σ}, kept s → kept (next s).2
  pos_next : ∀ {s s' : σ} {x : τ}, kept s → next s = (.ok x, s') → pos s' = pos s + 1
  pos_back : ∀ {n : Nat} {s s' : σ}, kept s → back n s = (.ok (), s') → pos s' + n = pos s

theorem Honest.counts (h : Honest σ) : Counts fun _ : σ => True where
  kept_next _ := trivial
  pos_next _ := h.pos_next
  pos_back _ := h.pos_back

theorem Counts.pos_skip {kept : σ → Prop} (h : Counts kept) {k : Nat} {s s' : σ} (hs : kept s)
    (hskip : skip k s = (.ok (), s')) : pos s' = pos s + k := by
  induction k generalizing s with
  | zero =>
    cases hskip
    rfl
  | succ k ih =>
    obtain ⟨x, s₁, hnext, hskip⟩ := skip_succ_eq_ok_iff.1 hskip
    have hs₁ : kept s₁ := by
      have hkept := h.kept_next hs
      rwa [hnext] at hkept
    have := ih hs₁ hskip
    have := h.pos_next hs hnext
    omega

theorem Honest.pos_skip (h : Honest σ) {k : Nat} {s s' : σ} (hskip : skip k s = (.ok (), s')) :
    pos s' = pos s + k := h.counts.pos_skip trivial hskip

/-- A return works out exactly when the move does. -/
theorem rewind_eq_ok_iff {target : Nat} {s s' : σ} :
    rewind target s = (.ok (), s') ↔ moveTo target s = (.ok (), s') := by
  rw [rewind]
  rcases moveTo target s with ⟨f | x, s₁⟩ <;> simp

/-- **A return that works out ends at its target.** -/
theorem Counts.pos_rewind {kept : σ → Prop} (h : Counts kept) {target : Nat} {s s' : σ}
    (hs : kept s) (hrewind : rewind target s = (.ok (), s')) : pos s' = target := by
  have hmove := rewind_eq_ok_iff.1 hrewind
  rw [moveTo] at hmove
  split at hmove
  · have := h.pos_back hs hmove
    omega
  · have := h.pos_skip hs hmove
    omega

theorem Honest.pos_rewind (h : Honest σ) {target : Nat} {s s' : σ}
    (hrewind : rewind target s = (.ok (), s')) : pos s' = target :=
  h.counts.pos_rewind trivial hrewind

/-! ## A plain index -/

/-- **A cursor that is an index into loaded data.** -/
structure Indexed (items : σ → List τ) : Prop where
  peek_eq : ∀ s : σ, peek s = (peekAt (items s) (pos s), s)
  next_eq : ∀ s : σ, ((next s).1, pos (next s).2) = nextAt (items s) (pos s)
  back_eq : ∀ (n : Nat) (s : σ), ((back n s).1, pos (back n s).2) = backFrom n (pos s)
  items_next : ∀ s : σ, items (next s).2 = items s
  items_back : ∀ (n : Nat) (s : σ), items (back n s).2 = items s

theorem peekAt_refused {items : List τ} {p : Nat} {e : ParseError}
    (h : peekAt items p = .error (.parse e)) : e.position = p := by
  rw [peekAt] at h
  split at h
  · cases h
    rfl
  · cases h

theorem nextAt_refused {items : List τ} {p p' : Nat} {e : ParseError}
    (h : nextAt items p = (.error (.parse e), p')) : p' = p ∧ e.position = p := by
  rw [nextAt] at h
  split at h
  · cases h
    exact ⟨rfl, rfl⟩
  · cases h

theorem nextAt_ok {items : List τ} {p p' : Nat} {x : τ} (h : nextAt items p = (.ok x, p')) :
    items[p]? = some x ∧ p' = p + 1 := by
  rw [nextAt] at h
  split at h
  · cases h
  · next hget =>
    cases h
    exact ⟨hget, rfl⟩

theorem backFrom_refused {n p p' : Nat} {e : ParseError}
    (h : backFrom n p = (.error (.parse e), p')) : p' = p ∧ e.position = p := by
  rw [backFrom] at h
  split at h
  · cases h
  · cases h
    exact ⟨rfl, rfl⟩

theorem backFrom_ok {n p p' : Nat} (h : backFrom n p = (.ok (), p')) : p' + n = p := by
  rw [backFrom] at h
  split at h
  · cases h
    omega
  · cases h

theorem Indexed.honest {items : σ → List τ} (h : Indexed items) : Honest σ where
  peek_refused {s s' e} hpeek := by
    obtain ⟨hrefused, rfl⟩ := Prod.mk.inj ((h.peek_eq s).symm.trans hpeek)
    exact ⟨rfl, peekAt_refused hrefused⟩
  next_refused {s s' e} hnext := by
    have heq := h.next_eq s
    rw [hnext] at heq
    exact nextAt_refused heq.symm
  back_refused {n s s' e} hback := by
    have heq := h.back_eq n s
    rw [hback] at heq
    exact backFrom_refused heq.symm
  pos_next {s s' x} hnext := by
    have heq := h.next_eq s
    rw [hnext] at heq
    exact (nextAt_ok heq.symm).2
  pos_back {n s s'} hback := by
    have heq := h.back_eq n s
    rw [hback] at heq
    exact backFrom_ok heq.symm

end Cursor

/-! ## Four honest cursors -/

theorem ArrayCursor.indexed {α : Type} : Cursor.Indexed (ArrayCursor.toList (α := α)) where
  peek_eq c := congrArg (·, c) c.peek_eq_peekAt
  next_eq := next_eq_nextAt
  back_eq n c := c.back_eq_backFrom n
  items_next := toList_next
  items_back n c := c.toList_back n

theorem ListCursor.indexed {α : Type} : Cursor.Indexed (ListCursor.toList (α := α)) where
  peek_eq c := congrArg (·, c) c.peek_eq_peekAt
  next_eq := next_eq_nextAt
  back_eq n c := c.back_eq_backFrom n
  items_next := toList_next
  items_back n c := c.toList_back n

theorem Reader.honest : Cursor.Honest Reader where
  peek_refused {r r' e} hpeek := by
    obtain ⟨hrefused, rfl⟩ := Prod.mk.inj hpeek
    rw [peek] at hrefused
    split at hrefused
    · cases hrefused
      exact ⟨rfl, rfl⟩
    · cases hrefused
  next_refused {r r' e} hnext := by
    have htaken := taken_next r
    rw [show r.next = _ from hnext] at htaken
    cases htaken
    exact ⟨rfl, rfl⟩
  back_refused {n r r' e} hback := by
    change r.back n = _ at hback
    obtain ⟨-, heq⟩ | ⟨-, -, heq⟩ | ⟨-, -, heq⟩ := back_cases n r <;> cases heq.symm.trans hback <;>
      exact ⟨rfl, rfl⟩
  pos_next {r r' b} hnext := by
    have htaken := taken_next r
    rw [show r.next = _ from hnext] at htaken
    cases htaken with
    | kept => rfl
    | refilled => exact pos_trim _
  pos_back {n r r'} hback := by
    change r.back n = _ at hback
    obtain ⟨-, heq⟩ | ⟨-, -, heq⟩ | ⟨hle, -, heq⟩ := back_cases n r <;> cases heq.symm.trans hback
    exact Nat.sub_add_cancel hle

namespace FaultyCursor

variable {α : Type} {c : FaultyCursor α} {operation : String} {e : ParseError}

theorem position_of_fault (h : c.fault operation = .parse e) : e.position = c.inner.pos := by
  rw [fault] at h
  split at h
  · cases h
  · cases h
    rfl

theorem honest : Cursor.Honest (FaultyCursor α) where
  peek_refused {c c' e} hpeek := by
    obtain ⟨hrefused, rfl⟩ := Prod.mk.inj hpeek
    refine ⟨rfl, ?_⟩
    rw [peek] at hrefused
    split at hrefused
    · exact position_of_fault (Except.error.inj hrefused)
    · rw [ArrayCursor.peek_eq_peekAt] at hrefused
      exact Cursor.peekAt_refused hrefused
  next_refused {c c' e} hnext := by
    change c.next = _ at hnext
    rw [next] at hnext
    split at hnext
    · obtain ⟨hfault, rfl⟩ := Prod.mk.inj hnext
      exact ⟨rfl, position_of_fault (Except.error.inj hfault)⟩
    · obtain ⟨hinner, rfl⟩ := Prod.mk.inj hnext
      exact ArrayCursor.indexed.honest.next_refused (s := c.inner) (Prod.ext hinner rfl)
  back_refused {n c c' e} hback := by
    change c.back n = _ at hback
    unfold back at hback
    split at hback
    · cases hback
    · obtain ⟨hfault, rfl⟩ := Prod.mk.inj hback
      exact ⟨rfl, position_of_fault (Except.error.inj hfault)⟩
    · obtain ⟨hinner, rfl⟩ := Prod.mk.inj hback
      exact ArrayCursor.indexed.honest.back_refused (s := c.inner) (Prod.ext hinner rfl)
  pos_next {c c' x} hnext := by
    change c.next = _ at hnext
    rw [next] at hnext
    split at hnext
    · cases hnext
    · obtain ⟨hinner, rfl⟩ := Prod.mk.inj hnext
      exact ArrayCursor.indexed.honest.pos_next (s := c.inner) (Prod.ext hinner rfl)
  pos_back {n c c'} hback := by
    change c.back n = _ at hback
    unfold back at hback
    split at hback
    · cases hback
      rfl
    · cases hback
    · obtain ⟨hinner, rfl⟩ := Prod.mk.inj hback
      exact ArrayCursor.indexed.honest.pos_back (s := c.inner) (Prod.ext hinner rfl)

end FaultyCursor

end Backtrack
