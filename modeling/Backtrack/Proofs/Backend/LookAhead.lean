import Backtrack.Proofs.Backend.Backtracking
import Backtrack.Proofs.Reader.Replay

/-!
# Proofs/Backend/LookAhead — a look ahead, and then the same again in earnest

    s ───────── p ─────────▸ v, s₂
    s ── lookAhead p ──▸ v, s₁ ── p ──▸ v, s₂

**A cursor over loaded data** has nothing but its data and its position, so a look ahead that works
out leaves the very cursor it found.

**A reader** is not the same after it: it has loaded what `p` asked for, and forgotten what it did
not have to keep.  But it can be at the start again, so the start is kept, and it has gone as far as
`p` goes.  So `p` runs on it as it ran before and asks nothing of the source (`Reader.Replays`).
-/

namespace Backtrack

variable {N : Type → Type} {σ τ α β : Type}

/-- **What a look ahead with value `v` at `s` is good for**: it leaves a cursor `s₁` at the same
position, where `p` yields `v` again and ends as it does from `s`.  On the way `p` leaves alone what
`rest` says a cursor consists of. -/
structure Rehearses [Cursor σ τ] (G : Grammar N τ) (p : Parser N τ α) (s : σ) (v : α) (s₁ : σ)
    (rest : σ → β) : Prop where
  pos_eq : Cursor.pos s₁ = Cursor.pos s
  again : ∃ s₂, G.Yields p s (.ok v) s₂ ∧ G.Yields p s₁ (.ok v) s₂ ∧ rest s₂ = rest s₁

/-- **Over loaded data a look ahead changes nothing.** -/
theorem Cursor.Indexed.rehearses [Cursor σ τ] {items : σ → List τ} (h : Indexed items)
    (hext : ∀ {s t : σ}, items s = items t → pos s = pos t → s = t) {G : Grammar N τ}
    {p : Parser N τ α} {s s₁ : σ} {v : α} (hlook : G.Yields (.lookAhead p) s (.ok v) s₁) :
    Rehearses G p s v s₁ items := by
  have hitems := h.items_of_yields hlook
  obtain ⟨n, hn⟩ := hlook
  obtain ⟨s₂, hrun, hrewind⟩ := Action.lookAhead_eq_ok_iff.1 hn
  have hp : G.Yields p s (.ok v) s₂ := ⟨n, hrun⟩
  obtain rfl : s₁ = s := hext hitems (h.honest.pos_rewind hrewind)
  exact ⟨rfl, s₂, hp, hp, h.items_of_yields hp⟩

/-- **A reader that has looked ahead need not ask its source again.** -/
theorem Reader.Reachable.rehearses {source : Source} {config : ReaderConfig} {r r₁ : Reader}
    (h : Reachable source config r) {G : Grammar N UInt8} (hG : G.Within forwardOnly)
    {p : Parser N UInt8 α} (hp : p.Within forwardOnly) {v : α}
    (hlook : G.Yields (.lookAhead p) r (.ok v) r₁) : Rehearses G p r v r₁ apart := by
  obtain ⟨n, hn⟩ := hlook
  obtain ⟨r₂, hrun, hrewind⟩ := Action.lookAhead_eq_ok_iff.1 hn
  have hreplay := replays_run hG n hp h.invariant hrun nofun
  obtain ⟨hkept, rfl⟩ := hreplay.precedes.rewound hrewind
  exact ⟨rfl, r₂, ⟨n, hrun⟩, ⟨n, hreplay.again (.refl hreplay.precedes.later) hkept⟩, rfl⟩

/-- **A look ahead rehearses the run after it**, on the array cursor and the zipper for any parser,
and on a reader that calls lead to for every parser that leaves stepping back to attempts and fatal
failures alone. -/
theorem lookAhead_rehearses :
    (∀ {N : Type → Type} {τ α : Type} {G : Grammar N τ} {p : Parser N τ α} {m m₁ : ArrayCursor τ}
      {v : α}, G.Yields (.lookAhead p) m (.ok v) m₁ → Rehearses G p m v m₁ ArrayCursor.toList) ∧
    (∀ {N : Type → Type} {τ α : Type} {G : Grammar N τ} {p : Parser N τ α} {l l₁ : ListCursor τ}
      {v : α}, G.Yields (.lookAhead p) l (.ok v) l₁ → Rehearses G p l v l₁ ListCursor.toList) ∧
    ∀ {N : Type → Type} {α : Type} {G : Grammar N UInt8} {p : Parser N UInt8 α},
      G.Within Reader.forwardOnly → p.Within Reader.forwardOnly →
      ∀ {source : Source} {config : ReaderConfig} {r r₁ : Reader} {v : α},
        Reader.Reachable source config r → G.Yields (.lookAhead p) r (.ok v) r₁ →
          Rehearses G p r v r₁ Reader.apart := by
  refine ⟨fun h => ?_, fun h => ?_, fun hG hp _ _ _ _ _ hr h => hr.rehearses hG hp h⟩
  · exact ArrayCursor.indexed.rehearses ArrayCursor.eq_of_toList_eq h
  · exact ListCursor.indexed.rehearses ListCursor.eq_of_toList_eq h

/-- Takes a symbol in vain, and then for good. -/
def takesAtSecondTry : Parser (fun _ => Empty) UInt8 UInt8 :=
  .bind (.optional (takesOne (α := Unit))) fun _ => .next

/-- The look ahead loads a second byte; the run after it, undone attempt and all, loads nothing. -/
theorem narrowReader_rehearses :
    let G : Grammar (fun _ => Empty) UInt8 := ⟨fun r => nomatch r⟩
    let loaded : Reader := ⟨⟨[], [99], 2, 2⟩, ⟨1, some 1⟩, #[97, 98], 0, 0, false⟩
    G.Yields (.lookAhead takesAtSecondTry) narrowReader (.ok 97) loaded ∧
      Rehearses G takesAtSecondTry narrowReader 97 loaded Reader.apart := by
  intro G loaded
  have hlook : G.Yields (.lookAhead takesAtSecondTry) narrowReader (.ok 97) loaded := ⟨1, rfl⟩
  have hG : G.Within Reader.forwardOnly := fun r => nomatch r
  have hp : takesAtSecondTry.Within Reader.forwardOnly :=
    ⟨⟨trivial, fun _ => trivial⟩, fun _ => trivial⟩
  exact ⟨hlook, lookAhead_rehearses.2.2 hG hp reachable_narrowReader hlook⟩

end Backtrack
