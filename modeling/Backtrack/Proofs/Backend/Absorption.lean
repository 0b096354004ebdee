import Backtrack.Proofs.Backend.Choice

/-!
# Proofs/Backend/Absorption — an attempt inside an attempt is absorbed

    s ──p──▸ ✗, s₁ ──return──▸ s₂                            attempt p
    s ──p──▸ ✗, s₁ ──return──▸ s₂ ──return──▸ s₂             attempt (attempt p)

The inner attempt has returned to the start, forward or backward, or it has ended fatally, and then
the outer one does nothing.  Where it has returned, the outer return is one to where the cursor
stands: a step back over nothing.  So all it takes is a cursor that counts its moves and stays where
it is told to; what its failures do to it does not matter.

Whatever makes an attempt of its parts absorbs an attempt made of them before: an option, a look
ahead, every round of a repetition, every alternative of a choice.  The cursors are the very same,
so that one difference in the state, however far from the cursor's position, would be seen.
-/

namespace Backtrack

variable {N : Type → Type} {σ τ α : Type}

namespace Action

variable [Cursor σ τ] {p q : Action σ α} {s : σ}

/-- What is made of an attempt sees nothing of what was attempted. -/
theorem optional_congr (h : attempt p s = attempt q s) : optional p s = optional q s :=
  recover_congr (map_congr some h) fun _ _ _ => rfl

theorem lookAhead_congr (h : attempt p s = attempt q s) : lookAhead p s = lookAhead q s := by
  rw [lookAhead, lookAhead, bind, bind, h]

/-- A repetition that has to succeed once sees nothing but the repetition. -/
theorem manyOne_congr {n : Nat} (h : many n p s = many n q s) : manyOne n p s = manyOne n q s := by
  rw [manyOne, manyOne, bind, bind, h]

end Action

/-! ## The part that is absorbed -/

namespace Cursor.Stays

variable [Cursor σ τ] {kept : σ → Prop} (stays : Stays (τ := τ) kept) (counts : Counts kept)
  {s : σ} (hs : kept s) (G : Grammar N τ) (n : Nat) (p : Parser N τ α)
include stays counts hs

/-- **An attempt may be attempted again for nothing.** -/
theorem attempt_attempt :
    G.run n (.attempt (.attempt p)) s = G.run n (.attempt p) s := by
  refine Action.attempt_eq_self fun e s' hfailed => ?_
  have hs' : kept s' := stays.of_run hs hfailed
  obtain ⟨e₀, s₁, hp, hrewind, rfl⟩ := Action.attempt_eq_parse_iff.1 hfailed
  have hpos : pos s' = pos s := counts.pos_rewind (stays.of_run hs hp) hrewind
  refine ⟨rfl, ?_⟩
  rw [← hpos]
  exact stays.rewind_pos hs'

theorem optional_attempt : G.run n (.optional (.attempt p)) s = G.run n (.optional p) s :=
  Action.optional_congr (stays.attempt_attempt counts hs G n p)

theorem lookAhead_attempt : G.run n (.lookAhead (.attempt p)) s = G.run n (.lookAhead p) s :=
  Action.lookAhead_congr (stays.attempt_attempt counts hs G n p)

/-- **Round by round**: each is an option, and leaves a cursor of the same kind. -/
theorem many_attempt (k : Nat) :
    (G.run n (.attempt p)).many k s = (G.run n p).many k s := by
  induction k generalizing s with
  | zero => rfl
  | succ k ih =>
    have hround : Action.optional (G.run n (.attempt p)) s = Action.optional (G.run n p) s :=
      stays.optional_attempt counts hs G n p
    rw [Action.many, Action.many, Action.bind, Action.bind, hround]
    rcases hout : Action.optional (G.run n p) s with _ | ⟨f | _ | v, s₁⟩
    · rfl
    · rfl
    · rfl
    · have hs₁ : kept s₁ := stays.of_run hs (p := .optional p) hout
      exact Action.map_congr _ (ih hs₁)

theorem manyOne_attempt : G.run n (.manyOne (.attempt p)) s = G.run n (.manyOne p) s :=
  Action.manyOne_congr (stays.many_attempt counts hs G n p n)

/-- **Alternative by alternative**, with the start of the choice in hand. -/
theorem firstOfFrom_attempt (start : Nat) (ps : List (Parser N τ α)) :
    Action.firstOfFrom start ((ps.map .attempt).map fun p => G.run n p) s
      = Action.firstOfFrom start (ps.map fun p => G.run n p) s := by
  induction ps generalizing s with
  | nil => rfl
  | cons p ps ih =>
    refine Action.recover_congr (stays.attempt_attempt counts hs G n p) fun e s₁ hfailed => ?_
    exact ih (stays.of_run hs (p := .attempt p) hfailed)

theorem firstOf_attempt (ps : List (Parser N τ α)) :
    G.run n (.firstOf (ps.map .attempt)) s = G.run n (.firstOf ps) s := by
  rw [G.run_firstOf, G.run_firstOf]
  exact stays.firstOfFrom_attempt counts hs G n (pos s) ps

end Cursor.Stays

/-- **Attempts are absorbed at `s`**: with any budget, what makes attempts of its parts has the same
result and leaves the same cursor if the parts are attempts already. -/
structure Absorbs [Cursor σ τ] (G : Grammar N τ) (s : σ) : Prop where
  attempt : ∀ {α : Type} (n : Nat) (p : Parser N τ α),
    G.run n (.attempt (.attempt p)) s = G.run n (.attempt p) s
  optional : ∀ {α : Type} (n : Nat) (p : Parser N τ α),
    G.run n (.optional (.attempt p)) s = G.run n (.optional p) s
  lookAhead : ∀ {α : Type} (n : Nat) (p : Parser N τ α),
    G.run n (.lookAhead (.attempt p)) s = G.run n (.lookAhead p) s
  many : ∀ {α : Type} (n : Nat) (p : Parser N τ α),
    G.run n (.many (.attempt p)) s = G.run n (.many p) s
  manyOne : ∀ {α : Type} (n : Nat) (p : Parser N τ α),
    G.run n (.manyOne (.attempt p)) s = G.run n (.manyOne p) s
  firstOf : ∀ {α : Type} (n : Nat) (ps : List (Parser N τ α)),
    G.run n (.firstOf (ps.map .attempt)) s = G.run n (.firstOf ps) s
  alt : ∀ {α : Type} (n : Nat) (p : Parser N τ α) (ps : List (Parser N τ α)),
    G.run n (.alt (.attempt p) (ps.map .attempt)) s = G.run n (.alt p ps) s

theorem Cursor.Stays.absorbs [Cursor σ τ] {kept : σ → Prop} (stays : Stays (τ := τ) kept)
    (counts : Counts kept) (G : Grammar N τ) {s : σ} (hs : kept s) : Absorbs G s where
  attempt n p := stays.attempt_attempt counts hs G n p
  optional n p := stays.optional_attempt counts hs G n p
  lookAhead n p := stays.lookAhead_attempt counts hs G n p
  many n p := stays.many_attempt counts hs G n p n
  manyOne n p := stays.manyOne_attempt counts hs G n p
  firstOf n ps := stays.firstOf_attempt counts hs G n ps
  alt n p ps := by
    rw [G.run_alt, G.run_alt]
    exact stays.firstOf_attempt counts hs G n (p :: ps)

/-! ## Four cursors -/

theorem FaultyCursor.stays : Cursor.Stays fun _ : FaultyCursor τ => True where
  perform _ _ := trivial
  back_zero _ := rfl

theorem Reader.counts (source : Source) (config : ReaderConfig) :
    Cursor.Counts (Reachable source config) where
  kept_next h := h.call .next
  pos_next _ := Reader.honest.pos_next
  pos_back _ := Reader.honest.pos_back

/-- **Redundant attempts are absorbed.**  On any cursor that counts its moves, and on which a step
back over nothing is no step, wherever calls lead from there: an attempt of an attempt is the
attempt; and an option, a look ahead, a repetition, one that has to succeed, and a choice do the
same with their parts as with attempts of them, to the last field of the cursor.  Such are the array
cursor, the zipper and the faulty cursor in any state, and a reader in any state that calls lead
to. -/
theorem redundant_attempts_absorbed :
    (∀ {N : Type → Type} {σ τ : Type} [Cursor σ τ] {kept : σ → Prop},
      Cursor.Stays (τ := τ) kept → Cursor.Counts (τ := τ) kept →
      ∀ (G : Grammar N τ) {s : σ}, kept s → Absorbs G s) ∧
    (∀ {N : Type → Type} {τ : Type} (G : Grammar N τ), (∀ m : ArrayCursor τ, Absorbs G m) ∧
      (∀ l : ListCursor τ, Absorbs G l) ∧ ∀ c : FaultyCursor τ, Absorbs G c) ∧
    ∀ {N : Type → Type} (G : Grammar N UInt8) {source : Source} {config : ReaderConfig}
      {r : Reader}, Reader.Reachable source config r → Absorbs G r := by
  refine ⟨fun stays counts G _ hs => stays.absorbs counts G hs,
    fun G => ⟨fun m => ?_, fun l => ?_, fun c => ?_⟩, fun G source config r hr => ?_⟩
  · exact ArrayCursor.stays.absorbs ArrayCursor.indexed.honest.counts G trivial
  · exact ListCursor.stays.absorbs ListCursor.indexed.honest.counts G trivial
  · exact FaultyCursor.stays.absorbs FaultyCursor.honest.counts G trivial
  · exact (Reader.stays source config).absorbs (Reader.counts source config) G hr

/-- On the narrow reader both attempts end in the refusal of the inner one, after as many reads.  On
a cursor that steps back once, the one return of a round is all there is to pay for. -/
theorem narrowReader_absorbs :
    let G : Grammar (fun _ => Empty) UInt8 := ⟨fun r => nomatch r⟩
    Reader.Reachable (.ofBytes [97, 98, 99] []) ⟨1, some 1⟩ narrowReader ∧
      G.run 1 (.attempt (.attempt takesTwo)) narrowReader
        = G.run 1 (.attempt takesTwo) narrowReader ∧
      (∃ cause r, G.run 1 (.attempt takesTwo) narrowReader
        = some (.error (.stream (.restore 0 cause)), r) ∧ r.source.reads = 3) ∧
      Absorbs G onceBack ∧ G.run 1 (.many (.attempt takesTwo)) onceBack
        = some (.ok [], { onceBack with backBudget := some 0 }) := by
  intro G
  have hreader := redundant_attempts_absorbed.2.2 G reachable_narrowReader
  have hfaulty : Absorbs G onceBack :=
    redundant_attempts_absorbed.1 FaultyCursor.stays FaultyCursor.honest.counts G trivial
  refine ⟨reachable_narrowReader, hreader.attempt 1 takesTwo, ⟨_, _, rfl, rfl⟩, hfaulty, ?_⟩
  rw [hfaulty.many]
  rfl

end Backtrack
