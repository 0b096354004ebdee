import Backtrack.Proofs.Backend.Choice
import Backtrack.Proofs.Reader.Nearby

/-!
# Proofs/Reader/Outcome — a reader's outcome, by the outcome over what is delivered

    array cursor over all that is delivered   ──parser──▸   result
              │InStep                                         │the same
            reader                            ──parser──▸   result      or  unread
                                                                        or  forgotten, if it fails

A parser that is shadowed step by step, and then attempted, does on a reader what it does over the
bytes that are delivered (`ComesTo`), with two ways out, both fatal.  One has nothing to do with the
parser: a byte cannot be loaded.  The other is left to the attempt around it: where the parser
fails and the window has moved past the start, the failure cannot be undone, and is told as such.

A choice is a row of attempts.  If an alternative that fails *late*, behind the start, leaves
nothing for those after it, then a refusal to return is never one that keeps them from matching
(`comesTo_firstOf`).
-/

namespace Backtrack

variable {N : Type → Type} {α : Type} {source : Source} {config : ReaderConfig}

namespace Reader

variable {G : Grammar N UInt8} {p : Parser N UInt8 α} {ps : List (Parser N UInt8 α)}
  {m m' : ArrayCursor UInt8} {r r' : Reader} {x : Except Failure α}

/-- **What a parser comes to on a reader**, where over the bytes that are delivered it comes to the
result `x` and the cursor `m'`. -/
inductive ComesTo (source : Source) (config : ReaderConfig) (G : Grammar N UInt8)
    (p : Parser N UInt8 α) (r : Reader) (x : Except Failure α) (m' : ArrayCursor UInt8) :
    Prop where
  /-- The same, and the cursors are in step. -/
  | same {r' : Reader} (h : G.Yields p r x r') (hstep : InStep source config m' r')
  /-- A byte could not be loaded. -/
  | unread {e : StreamError} {r' : Reader} (h : G.Yields p r (.error (.stream e)) r')
      (he : Unread e)
  /-- A failure could not be undone, since the start is forgotten. -/
  | forgotten {e cause : ParseError} {r' : Reader} (hx : x = .error (.parse e))
      (h : G.Yields p r (.error (.stream (.restore r.pos cause))) r')
      (hwindow : r.pos < r'.windowStart)
      (hback : Cursor.back (r'.pos - r.pos) r' = (.error (.parse cause), r'))

/-- It is the same or fatal. -/
theorem ComesTo.same_or_fatal (h : ComesTo source config G p r x m') :
    (∃ r', G.Yields p r x r' ∧ InStep source config m' r') ∨
      ∃ e r', G.Yields p r (.error (.stream e)) r' := by
  obtain ⟨hr', hstep⟩ | ⟨hr', -⟩ | ⟨-, hr', -⟩ := h
  · exact .inl ⟨_, hr', hstep⟩
  · exact .inr ⟨_, _, hr'⟩
  · exact .inr ⟨_, _, hr'⟩

theorem Reachable.of_yields (hr : Reachable source config r) (h : G.Yields p r x r') :
    Reachable source config r' := by
  obtain ⟨calls, rfl⟩ := h.exists_performAll
  exact hr.performAll calls

/-- **A parser shadowed step by step** yields the same, unless a byte cannot be loaded. -/
theorem yields_of_shadows (hstep : InStep source config m r)
    (hp : ∀ n, Shadows source config (G.run n p) (G.run n p)) (h : G.Yields p m x m') :
    (∃ r', G.Yields p r x r' ∧ InStep source config m' r') ∨
      ∃ e r', G.Yields p r (.error (.stream e)) r' ∧ Unread e := by
  obtain ⟨n, hn⟩ := h
  have hfollows := hp n hstep
  rw [hn] at hfollows
  generalize hy : G.run n p r = y at hfollows
  cases hfollows with
  | agree x hstep' => exact .inl ⟨_, ⟨n, hy⟩, hstep'⟩
  | astray he => exact .inr ⟨_, _, ⟨n, hy⟩, he⟩

theorem comesTo_of_shadows (hstep : InStep source config m r)
    (hp : ∀ n, Shadows source config (G.run n p) (G.run n p)) (h : G.Yields p m x m') :
    ComesTo source config G p r x m' := by
  obtain ⟨r', hr', hstep'⟩ | ⟨e, r', hr', he⟩ := yields_of_shadows hstep hp h
  · exact .same hr' hstep'
  · exact .unread hr' he

/-! ## Attempts -/

/-- **An attempt of what fails recoverably**: undone, if its start is in the window, and refused
otherwise. -/
theorem attempt_of_parse (hr : Reachable source config r) (hstep : InStep source config m r)
    {e : ParseError} {r₁ : Reader} (h : G.Yields p r (.error (.parse e)) r₁) :
    (∃ r₂, G.Yields (.attempt p) r (.error (.parse ⟨e.message, m.pos⟩)) r₂ ∧
        InStep source config m r₂) ∨
      ∃ cause, G.Yields (.attempt p) r (.error (.stream (.restore r.pos cause))) r₁ ∧
        r.pos < r₁.windowStart ∧
        Cursor.back (r₁.pos - r.pos) r₁ = (.error (.parse cause), r₁) := by
  by_cases hkept : r₁.windowStart ≤ r.pos
  · obtain ⟨r₂, hattempt, hpos, -⟩ := (hr.undoes G p).undone h hkept
    have hposition : Cursor.pos r = m.pos := hstep.pos_eq.symm
    refine .inl ⟨r₂, hposition ▸ hattempt, (hr.of_yields hattempt).invariant, hstep.toList_eq, ?_⟩
    exact hstep.pos_eq.trans hpos.symm
  · obtain ⟨cause, hback, hattempt⟩ := (hr.undoes G p).refused h hkept
    exact .inr ⟨cause, hattempt, Nat.lt_of_not_le hkept, hback⟩

theorem comesTo_attempt (hr : Reachable source config r) (hstep : InStep source config m r)
    (hp : ∀ n, Shadows source config (G.run n p) (G.run n p))
    (h : G.Yields (.attempt p) m x m') : ComesTo source config G (.attempt p) r x m' := by
  by_cases hx : ∃ e, x = .error (.parse e)
  · obtain ⟨e, rfl⟩ := hx
    obtain ⟨rfl, e₁, m₁, hfails⟩ := ArrayCursor.yields_attempt_parse_iff.1 ⟨e, h⟩
    rw [(h.unique (ArrayCursor.yields_attempt_of_parse hfails)).1]
    obtain ⟨r₁, hr₁, -⟩ | ⟨fatal, r₁, hr₁, he⟩ := yields_of_shadows hstep hp hfails
    · obtain ⟨r₂, hattempt, hstep₂⟩ | ⟨cause, hattempt, hwindow, hback⟩ :=
        attempt_of_parse hr hstep hr₁
      · exact .same hattempt hstep₂
      · exact .forgotten rfl hattempt hwindow hback
    · exact .unread ((hr.undoes G p).passed hr₁ nofun) he
  · have hne : ∀ e, x ≠ .error (.parse e) := fun e he => hx ⟨e, he⟩
    have hplain := (ArrayCursor.yields_attempt_iff_of_ne hne).1 h
    obtain ⟨r₁, hr₁, hstep₁⟩ | ⟨fatal, r₁, hr₁, he⟩ := yields_of_shadows hstep hp hplain
    · exact .same ((hr.undoes G p).passed hr₁ hne) hstep₁
    · exact .unread ((hr.undoes G p).passed hr₁ nofun) he

/-! ## Choices -/

/-- **A choice between alternatives of which one that fails late excludes those after it.**  Late
is: behind the place where the choice began. -/
theorem comesTo_firstOf (hr : Reachable source config r) (hstep : InStep source config m r)
    (hps : ∀ p ∈ ps, ∀ n, Shadows source config (G.run n p) (G.run n p))
    (hapart : ps.Pairwise fun p q => ∀ e m₁, G.Yields p m (.error (.parse e)) m₁ →
      m.pos < m₁.pos → G.Rejects q m)
    (h : G.Yields (.firstOf ps) m x m') : ComesTo source config G (.firstOf ps) r x m' := by
  induction ps generalizing r with
  | nil =>
    have hnone : G.Yields (.firstOf []) r
        (.error (.parse ⟨"no alternative matched", r.pos⟩) : Except Failure α) r := ⟨0, rfl⟩
    obtain ⟨_, _, _, hsplit, -⟩ | ⟨-, rfl, rfl⟩ := ArrayCursor.yields_firstOf_iff.1 h
    · exact absurd hsplit.symm (by simp)
    · rw [hstep.pos_eq]
      exact .same hnone hstep
  | cons p ps ih =>
    obtain ⟨hp, hps⟩ := List.forall_mem_cons.1 hps
    obtain ⟨hlate, hapart⟩ := List.pairwise_cons.1 hapart
    have hdecides : ∀ {y r₁}, G.Yields (.attempt p) r y r₁ → (∀ e, y ≠ .error (.parse e)) →
        G.Yields (.firstOf (p :: ps)) r y r₁ := fun hy hne =>
      (Grammar.yields_firstOf_cons_iff Reader.honest).2 (.inl ⟨hy, hne⟩)
    obtain ⟨hx, hne⟩ | ⟨⟨e, m₁, hfails⟩, hrest⟩ := ArrayCursor.yields_firstOf_cons_iff.1 h
    · obtain ⟨r₁, hr₁, hstep₁⟩ | ⟨fatal, r₁, hr₁, he⟩ := yields_of_shadows hstep hp hx
      · exact .same (hdecides ((hr.undoes G p).passed hr₁ hne) hne) hstep₁
      · exact .unread (hdecides ((hr.undoes G p).passed hr₁ nofun) nofun) he
    · obtain ⟨r₁, hr₁, hstep₁⟩ | ⟨fatal, r₁, hr₁, he⟩ := yields_of_shadows hstep hp hfails
      · obtain ⟨r₂, hattempt, hstep₂⟩ | ⟨cause, hattempt, hwindow, hback⟩ :=
          attempt_of_parse hr hstep hr₁
        · -- the others begin where this one did
          have hgoes : ∀ {y r₃}, G.Yields (.firstOf ps) r₂ y r₃ →
              G.Yields (.firstOf (p :: ps)) r y r₃ := fun hy =>
            (Grammar.yields_firstOf_cons_iff Reader.honest).2 (.inr ⟨_, r₂, hattempt, hy⟩)
          have hpos : r₂.pos = r.pos := hstep₂.pos_eq.symm.trans hstep.pos_eq
          obtain ⟨hy, hstep₃⟩ | ⟨hy, he⟩ | ⟨rfl, hy, hwindow, hback⟩ :=
            ih (hr.of_yields hattempt) hstep₂ hps hapart hrest
          · exact .same (hgoes hy) hstep₃
          · exact .unread (hgoes hy) he
          · rw [hpos] at hy hwindow hback
            exact .forgotten rfl (hgoes hy) hwindow hback
        · -- the window has moved, so the cursor has, and nothing is left for the others
          have hmoved : m.pos < m₁.pos := by
            rw [hstep.pos_eq, hstep₁.pos_eq]
            exact Nat.lt_of_lt_of_le hwindow hstep₁.invariant.base_le_pos
          have hreject : ∀ q ∈ ps, G.Rejects q m := fun q hq => hlate q hq e m₁ hfails hmoved
          have hnone := ArrayCursor.yields_firstOf_iff.2 (.inr ⟨hreject, rfl, rfl⟩)
          exact .forgotten (hrest.unique hnone).1 (hdecides hattempt nofun) hwindow hback
      · exact .unread (hdecides ((hr.undoes G p).passed hr₁ nofun) nofun) he

end Reader

/-! ## Labels -/

/-- The same result, with another message if it is a recoverable failure. -/
def relabelled (message : String) : Except Failure α → Except Failure α
  | .error (.parse e) => .error (.parse { e with message })
  | x => x

theorem relabelled_of_ne (message : String) {x : Except Failure α}
    (hx : ∀ e, x ≠ .error (.parse e)) : relabelled message x = x := by
  rcases x with (e | e) | v
  · exact absurd rfl (hx e)
  · rfl
  · rfl

theorem Grammar.yields_label_iff {σ τ : Type} [Cursor σ τ] {G : Grammar N τ} {p : Parser N τ α}
    {message : String} {s s' : σ} {x : Except Failure α} :
    G.Yields (.label message p) s x s' ↔ ∃ y, G.Yields p s y s' ∧ x = relabelled message y := by
  constructor
  · rintro ⟨n, h⟩
    obtain ⟨hp, hx⟩ | ⟨e, s₁, hp, hfail⟩ := Action.recover_eq_some_iff.1 h
    · exact ⟨x, ⟨n, hp⟩, (relabelled_of_ne message hx).symm⟩
    · cases hfail
      exact ⟨_, ⟨n, hp⟩, rfl⟩
  · rintro ⟨y, ⟨n, hp⟩, rfl⟩
    refine ⟨n, Action.recover_eq_some_iff.2 ?_⟩
    by_cases hy : ∃ e, y = .error (.parse e)
    · obtain ⟨e, rfl⟩ := hy
      exact .inr ⟨e, s', hp, rfl⟩
    · have hne : ∀ e, y ≠ .error (.parse e) := fun e he => hy ⟨e, he⟩
      rw [relabelled_of_ne message hne]
      exact .inl ⟨hp, hne⟩

/-- What becomes of a parser becomes of the same with another message. -/
theorem Reader.ComesTo.relabelled {G : Grammar N UInt8} {p q : Parser N UInt8 α} {message : String}
    {r : Reader} {x : Except Failure α} {m' : ArrayCursor UInt8}
    (h : ComesTo source config G p r x m')
    (hq : ∀ {y r'}, G.Yields p r y r' → G.Yields q r (relabelled message y) r') :
    ComesTo source config G q r (relabelled message x) m' := by
  obtain ⟨hr', hstep⟩ | ⟨hr', he⟩ | ⟨rfl, hr', hwindow, hback⟩ := h
  · exact .same (hq hr') hstep
  · exact .unread (hq hr') he
  · exact .forgotten rfl (hq hr') hwindow hback

end Backtrack
