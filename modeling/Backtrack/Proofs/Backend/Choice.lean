import Backtrack.Proofs.Backend.Greedy
import Backtrack.Proofs.Parser.Yields

/-!
# Proofs/Backend/Choice — the first alternative that does not fail recoverably

    s ──attempt p₁──▸ ✗, s ──attempt p₂──▸ ✗, s ── … ──attempt pₖ──▸ result

Every alternative is an attempt, and an attempt that fails is back at its start, so each alternative
has the start of the choice.  Over loaded data that is the very same cursor, and the choice is the
first alternative that does not fail recoverably *when run by itself*.

**A choice may be attempted again for nothing.**  Where all alternatives fail the cursor is at the
start already, and a step back over nothing is no step.  So a choice between choices is one choice,
also on a reader, whose window may have grown in between.
-/

namespace Backtrack

variable {N : Type → Type} {σ τ α : Type}

/-! ## Recovering -/

namespace Action

variable {s s' : σ} {e : ParseError}

/-- Going on after a failure, and after the failure of that, is going on once. -/
theorem recover_recover (p : Action σ α) (f g : ParseError → Action σ α) :
    (p.recover f).recover g = p.recover fun e => (f e).recover g := by
  funext s
  rw [recover, recover, recover]
  rcases p s with _ | ⟨(e | e) | a, s'⟩ <;> rfl

theorem recover_congr {p q : Action σ α} {f g : ParseError → Action σ α} (h : p s = q s)
    (hfg : ∀ e s', q s = some (.error (.parse e), s') → f e s' = g e s') :
    p.recover f s = q.recover g s := by
  rw [recover, recover, h]
  rcases hout : q s with _ | ⟨(e | e) | a, s'⟩
  · rfl
  · exact hfg e s' hout
  · rfl
  · rfl

theorem recover_eq_some_iff {p : Action σ α} {handler : ParseError → Action σ α}
    {x : Except Failure α} : p.recover handler s = some (x, s') ↔
      (p s = some (x, s') ∧ ∀ e, x ≠ .error (.parse e)) ∨
      ∃ e s₁, p s = some (.error (.parse e), s₁) ∧ handler e s₁ = some (x, s') := by
  constructor
  · intro h
    rw [recover] at h
    rcases hout : p s with _ | ⟨(e | e) | a, s₁⟩ <;> rw [hout] at h
    · cases h
    · exact .inr ⟨e, s₁, rfl, h⟩
    · cases h
      exact .inl ⟨rfl, by rintro _ ⟨⟩⟩
    · cases h
      exact .inl ⟨rfl, by rintro _ ⟨⟩⟩
  · rintro (⟨hp, hx⟩ | ⟨e, s₁, hp, hhandler⟩)
    · exact recover_of_ne hp hx
    · rw [recover, hp]
      exact hhandler

variable [Cursor σ τ]

/-- Walking through two lists of alternatives is walking through one after the other. -/
theorem firstOfFrom_append (start : Nat) (ps qs : List (Action σ α)) :
    firstOfFrom start (ps ++ qs)
      = (firstOfFrom start ps).recover fun _ => firstOfFrom start qs := by
  induction ps with
  | nil => rfl
  | cons p ps ih => rw [List.cons_append, firstOfFrom, firstOfFrom, recover_recover, ih]

/-- An attempt of what fails at its start, and about it, changes nothing. -/
theorem attempt_eq_self {p : Action σ α}
    (h : ∀ e s', p s = some (.error (.parse e), s') →
      e.position = Cursor.pos s ∧ Cursor.rewind (Cursor.pos s) s' = (.ok (), s')) :
    attempt p s = p s := by
  rcases hout : p s with _ | ⟨(e | e) | a, s'⟩
  · rw [attempt, recover, hout]
  · obtain ⟨hposition, hrewind⟩ := h e s' hout
    refine attempt_eq_parse_iff.2 ⟨e, s', hout, hrewind, ?_⟩
    rw [← hposition]
    rfl
  · exact attempt_of_ne hout (by rintro _ ⟨⟩)
  · exact attempt_of_ne hout (by rintro _ ⟨⟩)

/-! ### On an honest cursor -/

section Honest

variable (honest : Cursor.Honest σ)
include honest

/-- **One alternative**: it decides, or the choice goes on with the others. -/
theorem firstOf_cons_eq_some_iff {p : Action σ α} {ps : List (Action σ α)}
    {x : Except Failure α} : firstOf (p :: ps) s = some (x, s') ↔
      (attempt p s = some (x, s') ∧ ∀ e, x ≠ .error (.parse e)) ∨
      ∃ e s₁, attempt p s = some (.error (.parse e), s₁) ∧ firstOf ps s₁ = some (x, s') := by
  refine recover_eq_some_iff.trans (or_congr_right ?_)
  refine exists_congr fun e => exists_congr fun s₁ => and_congr_right fun hattempt => ?_
  rw [firstOf, (pos_of_attempt honest hattempt).1]

/-- **A choice that fails recoverably is back at its start.** -/
theorem pos_of_firstOf {ps : List (Action σ α)}
    (h : firstOf ps s = some (.error (.parse e), s')) :
    Cursor.pos s' = Cursor.pos s ∧ e.position = Cursor.pos s := by
  induction ps generalizing s with
  | nil =>
    cases h
    exact ⟨rfl, rfl⟩
  | cons p ps ih =>
    obtain ⟨-, hne⟩ | ⟨e₀, s₁, hattempt, hrest⟩ := (firstOf_cons_eq_some_iff honest).1 h
    · exact absurd rfl (hne e)
    · have hpos := (pos_of_attempt honest hattempt).1
      rw [← hpos]
      exact ih hrest

end Honest

end Action

theorem Grammar.run_firstOf [Cursor σ τ] (G : Grammar N τ) (n : Nat) (ps : List (Parser N τ α)) :
    (G.run n (.firstOf ps) : Action σ α) = Action.firstOf (ps.map fun p => G.run n p) :=
  Parser.denote_firstOf _ n ps

/-- Choice by nesting does the same as choice from a list. -/
theorem Grammar.run_alt [Cursor σ τ] (G : Grammar N τ) (n : Nat) (p : Parser N τ α)
    (ps : List (Parser N τ α)) :
    (G.run n (.alt p ps) : Action σ α) = G.run n (.firstOf (p :: ps)) := by
  rw [run, Parser.denote_alt, ← Action.firstOf_eq_alt, run_firstOf]
  rfl

/-! ## Cursors that stay where they are told to -/

/-- **A step back over nothing is no step**, wherever calls lead. -/
structure Cursor.Stays [Cursor σ τ] (kept : σ → Prop) : Prop where
  perform : ∀ {s : σ} (c : Call), kept s → kept (Cursor.perform c s).2
  back_zero : ∀ {s : σ}, kept s → Cursor.back 0 s = (.ok (), s)

namespace Cursor.Stays

variable [Cursor σ τ] {kept : σ → Prop} (stays : Stays (τ := τ) kept) {s s' : σ}
include stays

theorem performAll (calls : List Call) (hs : kept s) : kept (performAll calls s) := by
  induction calls generalizing s with
  | nil => exact hs
  | cons c calls ih => exact ih (stays.perform c hs)

theorem of_run {G : Grammar N τ} {n : Nat} {p : Parser N τ α} {x : Except Failure α}
    (hs : kept s) (h : G.run n p s = some (x, s')) : kept s' := by
  rw [← G.performAll_calls_trace h]
  exact stays.performAll _ hs

/-- A return to where the cursor is leaves it alone. -/
theorem rewind_pos (hs : kept s) : rewind (pos s) s = (.ok (), s) := by
  rw [rewind_eq_ok_iff, Action.moveTo_of_le (Nat.le_refl _), Nat.sub_self]
  exact stays.back_zero hs

variable (honest : Honest σ)
include honest

/-- **A choice may be attempted again for nothing.** -/
theorem attempt_firstOf (hs : kept s) (G : Grammar N τ) (n : Nat) (ps : List (Parser N τ α)) :
    Action.attempt (G.run n (.firstOf ps)) s = G.run n (.firstOf ps) s := by
  refine Action.attempt_eq_self fun e s' hfailed => ?_
  have hkept := stays.of_run hs hfailed
  rw [G.run_firstOf] at hfailed
  obtain ⟨hpos, hposition⟩ := Action.pos_of_firstOf honest hfailed
  refine ⟨hposition, ?_⟩
  rw [← hpos]
  exact stays.rewind_pos hkept

/-- **A choice between two choices is one choice.** -/
theorem run_firstOf_append (hs : kept s) (G : Grammar N τ) (n : Nat)
    (ps qs : List (Parser N τ α)) :
    G.run n (.firstOf [.firstOf ps, .firstOf qs]) s = G.run n (.firstOf (ps ++ qs)) s := by
  -- where the first list fails, the second has the same start
  have hsecond : ∀ e s', G.run n (.firstOf ps) s = some (.error (.parse e), s') →
      ((Action.attempt (G.run n (.firstOf qs))).recover fun _ => Action.noneMatched (pos s)) s'
        = Action.firstOfFrom (pos s) (qs.map fun q => G.run n q) s' := by
    intro e s' hfailed
    have hkept := stays.of_run hs hfailed
    rw [G.run_firstOf] at hfailed
    rw [← (Action.pos_of_firstOf honest hfailed).1, ← List.append_nil (qs.map _),
      Action.firstOfFrom_append]
    refine Action.recover_congr ?_ fun _ _ _ => rfl
    rw [stays.attempt_firstOf honest hkept, G.run_firstOf]
    rfl
  have hfirst := stays.attempt_firstOf honest hs G n ps
  rw [G.run_firstOf n ps] at hfirst hsecond
  rw [G.run_firstOf, G.run_firstOf, List.map_append, Action.firstOf, Action.firstOf,
    Action.firstOfFrom_append, List.map_cons, G.run_firstOf n ps]
  exact Action.recover_congr hfirst hsecond

end Cursor.Stays

theorem ArrayCursor.stays : Cursor.Stays fun _ : ArrayCursor τ => True where
  perform _ _ := trivial
  back_zero _ := rfl

theorem ListCursor.stays : Cursor.Stays fun _ : ListCursor τ => True where
  perform _ _ := trivial
  back_zero _ := rfl

theorem Reader.stays (source : Source) (config : ReaderConfig) :
    Cursor.Stays (Reachable source config) where
  perform c h := h.call c
  back_zero {r} h := by
    obtain ⟨hn, -⟩ | ⟨-, hwindow, -⟩ | ⟨-, -, heq⟩ := back_cases 0 r
    · exact absurd hn (Nat.not_lt_zero _)
    · exact absurd hwindow (Nat.not_lt_of_le h.invariant.base_le_pos)
    · exact heq

/-! ## What a choice yields -/

/-- **A parser that fails recoverably here.** -/
def Grammar.Rejects [Cursor σ τ] (G : Grammar N τ) (p : Parser N τ α) (s : σ) : Prop :=
  ∃ e s', G.Yields p s (.error (.parse e)) s'

theorem Grammar.yields_firstOf_cons_iff [Cursor σ τ] (honest : Cursor.Honest σ) {G : Grammar N τ}
    {p : Parser N τ α} {ps : List (Parser N τ α)} {s s' : σ} {x : Except Failure α} :
    G.Yields (.firstOf (p :: ps)) s x s' ↔
      (G.Yields (.attempt p) s x s' ∧ ∀ e, x ≠ .error (.parse e)) ∨
      ∃ e s₁, G.Yields (.attempt p) s (.error (.parse e)) s₁ ∧ G.Yields (.firstOf ps) s₁ x s' := by
  constructor
  · rintro ⟨n, h⟩
    rw [run_firstOf] at h
    obtain ⟨hattempt, hx⟩ | ⟨e, s₁, hattempt, hrest⟩ :=
      (Action.firstOf_cons_eq_some_iff honest).1 h
    · exact .inl ⟨⟨n, hattempt⟩, hx⟩
    · refine .inr ⟨e, s₁, ⟨n, hattempt⟩, n, ?_⟩
      rw [run_firstOf]
      exact hrest
  · rintro (⟨⟨n, hattempt⟩, hx⟩ | ⟨e, s₁, ⟨n, hattempt⟩, k, hrest⟩)
    · refine ⟨n, ?_⟩
      rw [run_firstOf]
      exact (Action.firstOf_cons_eq_some_iff honest).2 (.inl ⟨hattempt, hx⟩)
    · have hattempt' := run_mono (Nat.le_max_left n k) hattempt
      have hrest' := run_mono (Nat.le_max_right n k) hrest
      refine ⟨max n k, ?_⟩
      rw [run_firstOf] at hrest' ⊢
      exact (Action.firstOf_cons_eq_some_iff honest).2 (.inr ⟨e, s₁, hattempt', hrest'⟩)

namespace ArrayCursor

variable {G : Grammar N τ} {p : Parser N τ α} {ps : List (Parser N τ α)} {m m' : ArrayCursor τ}
  {x : Except Failure α}

/-- An attempt that does not fail recoverably is what was attempted. -/
theorem yields_attempt_iff_of_ne (hx : ∀ e, x ≠ .error (.parse e)) :
    G.Yields (.attempt p) m x m' ↔ G.Yields p m x m' := by
  rcases x with (e | e) | v
  · exact absurd rfl (hx e)
  · exact yields_attempt_stream_iff
  · exact Grammar.yields_attempt_ok_iff

/-- **One alternative over loaded data**: it decides, or the choice goes on from the same cursor. -/
theorem yields_firstOf_cons_iff : G.Yields (.firstOf (p :: ps)) m x m' ↔
    (G.Yields p m x m' ∧ ∀ e, x ≠ .error (.parse e)) ∨
    (G.Rejects p m ∧ G.Yields (.firstOf ps) m x m') := by
  rw [Grammar.yields_firstOf_cons_iff indexed.honest]
  refine or_congr (and_congr_left fun hx => yields_attempt_iff_of_ne hx) ?_
  constructor
  · rintro ⟨e, m₁, hattempt, hrest⟩
    obtain ⟨rfl, hp⟩ := yields_attempt_parse_iff.1 ⟨e, hattempt⟩
    exact ⟨hp, hrest⟩
  · rintro ⟨hp, hrest⟩
    obtain ⟨e, hattempt⟩ := yields_attempt_parse_iff.2 ⟨rfl, hp⟩
    exact ⟨e, m, hattempt, hrest⟩

/-- **A choice is its first alternative that does not fail recoverably**, or the failure of all. -/
theorem yields_firstOf_iff : G.Yields (.firstOf ps) m x m' ↔
    (∃ before p after, ps = before ++ p :: after ∧ (∀ q ∈ before, G.Rejects q m) ∧
      G.Yields p m x m' ∧ ∀ e, x ≠ .error (.parse e)) ∨
    ((∀ q ∈ ps, G.Rejects q m) ∧
      x = .error (.parse ⟨"no alternative matched", m.pos⟩) ∧ m' = m) := by
  induction ps with
  | nil =>
    have hnone : G.Yields (.firstOf []) m
        (.error (.parse ⟨"no alternative matched", m.pos⟩) : Except Failure α) m := ⟨0, rfl⟩
    constructor
    · intro h
      obtain ⟨rfl, rfl⟩ := h.unique hnone
      exact .inr ⟨nofun, rfl, rfl⟩
    · rintro (⟨before, p, after, heq, -⟩ | ⟨-, rfl, rfl⟩)
      · exact absurd heq.symm (List.append_ne_nil_of_right_ne_nil before (List.cons_ne_nil p after))
      · exact hnone
  | cons q ps ih =>
    rw [yields_firstOf_cons_iff, ih]
    constructor
    · rintro (⟨hq, hx⟩ | ⟨hq, ⟨before, p, after, rfl, hbefore, hp, hx⟩ | ⟨hps, rfl, rfl⟩⟩)
      · exact .inl ⟨[], q, ps, rfl, nofun, hq, hx⟩
      · exact .inl ⟨q :: before, p, after, rfl, List.forall_mem_cons.2 ⟨hq, hbefore⟩, hp, hx⟩
      · exact .inr ⟨List.forall_mem_cons.2 ⟨hq, hps⟩, rfl, rfl⟩
    · rintro (⟨before, p, after, heq, hbefore, hp, hx⟩ | ⟨hps, rfl, rfl⟩)
      · cases before with
        | nil =>
          cases heq
          exact .inl ⟨hp, hx⟩
        | cons q' before =>
          cases heq
          obtain ⟨hq, hbefore⟩ := List.forall_mem_cons.1 hbefore
          exact .inr ⟨hq, .inl ⟨before, p, after, rfl, hbefore, hp, hx⟩⟩
      · obtain ⟨hq, hps⟩ := List.forall_mem_cons.1 hps
        exact .inr ⟨hq, .inr ⟨hps, rfl, rfl⟩⟩

end ArrayCursor

/-- **Ordered choice.**  Over loaded data a choice from a list is the first alternative that does
not fail recoverably where the choice starts, with the result and the cursor it has there; where all
of them fail, and where there is none, it is one failure about the start, and the cursor is left as
it was.  Choice by nesting does the same as choice from a list, on any cursor whatsoever.  And a
choice between choices is one choice, in any state of the array cursor and the zipper, and in any
state of a reader that calls lead to. -/
theorem choice_takes_first_match :
    (∀ {N : Type → Type} {τ α : Type} {G : Grammar N τ} {ps : List (Parser N τ α)}
      {m m' : ArrayCursor τ} {x : Except Failure α}, G.Yields (.firstOf ps) m x m' ↔
        (∃ (before : List (Parser N τ α)) (p : Parser N τ α) (after : List (Parser N τ α)),
          ps = before ++ p :: after ∧ (∀ q ∈ before, G.Rejects q m) ∧
          G.Yields p m x m' ∧ ∀ e, x ≠ .error (.parse e)) ∨
        ((∀ q ∈ ps, G.Rejects q m) ∧
          x = .error (.parse ⟨"no alternative matched", m.pos⟩) ∧ m' = m)) ∧
    (∀ {N : Type → Type} {σ τ α : Type} [Cursor σ τ] (G : Grammar N τ) (n : Nat)
      (p : Parser N τ α) (ps : List (Parser N τ α)) (s : σ),
      G.run n (.alt p ps) s = G.run n (.firstOf (p :: ps)) s) ∧
    (∀ {N : Type → Type} {τ α : Type} (G : Grammar N τ) (n : Nat) (ps qs : List (Parser N τ α))
      (m : ArrayCursor τ) (l : ListCursor τ),
      G.run n (.firstOf [.firstOf ps, .firstOf qs]) m = G.run n (.firstOf (ps ++ qs)) m ∧
      G.run n (.firstOf [.firstOf ps, .firstOf qs]) l = G.run n (.firstOf (ps ++ qs)) l) ∧
    ∀ {N : Type → Type} {α : Type} (G : Grammar N UInt8) (n : Nat)
      (ps qs : List (Parser N UInt8 α)) {source : Source} {config : ReaderConfig} {r : Reader},
      Reader.Reachable source config r →
      G.run n (.firstOf [.firstOf ps, .firstOf qs]) r = G.run n (.firstOf (ps ++ qs)) r := by
  refine ⟨ArrayCursor.yields_firstOf_iff, fun G n p ps s => congrFun (G.run_alt n p ps) s,
    fun G n ps qs m l => ⟨?_, ?_⟩, ?_⟩
  · exact ArrayCursor.stays.run_firstOf_append ArrayCursor.indexed.honest trivial G n ps qs
  · exact ListCursor.stays.run_firstOf_append ListCursor.indexed.honest trivial G n ps qs
  · intro N α G n ps qs source config r h
    exact (Reader.stays source config).run_firstOf_append Reader.honest h G n ps qs

/-- The second list of alternatives starts where the first did, on a reader that has loaded a byte
more in between. -/
theorem narrowReader_takes_first_match :
    let G : Grammar (fun _ => Empty) UInt8 := ⟨fun r => nomatch r⟩
    let nested : Parser (fun _ => Empty) UInt8 UInt8 :=
      .firstOf [.firstOf [takesOne], .firstOf [.next]]
    Reader.Reachable (.ofBytes [97, 98, 99] []) ⟨1, some 1⟩ narrowReader ∧
      G.run 1 nested narrowReader = G.run 1 (.firstOf [takesOne, .next]) narrowReader ∧
      G.run 1 nested narrowReader
        = some (.ok 97, ⟨⟨[], [99], 2, 2⟩, ⟨1, some 1⟩, #[97, 98], 0, 1, false⟩) := by
  intro G nested
  refine ⟨reachable_narrowReader, ?_, rfl⟩
  exact choice_takes_first_match.2.2.2 G 1 [takesOne] [.next] reachable_narrowReader

end Backtrack
