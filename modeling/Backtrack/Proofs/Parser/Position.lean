import Backtrack.Proofs.Action.Inversion
import Backtrack.Proofs.Cursor.Honest
import Backtrack.Proofs.Parser.Simulation

/-!
# Proofs/Parser/Position — a recoverable failure is about where the cursor is left

Positions get into failures in many ways: the cursor puts its own, a parser asks for the current
one, an attempt puts its start, a repetition and a choice put theirs.  On an honest cursor they come
to the same (`FailsInPlace`):

    fails by itself          about the current position, and nothing moves after it
    attempt                  about the start, after a return that ended there
    repetition, choice       about the start, after attempts that all returned there

The one way to break it is to raise a failure about a position of one's own choice.
-/

namespace Backtrack

variable {N : Type → Type} {σ τ α β : Type} [Cursor σ τ]

namespace Action

/-- **Every recoverable failure is about the position the cursor is left at.** -/
def FailsInPlace (a : Action σ α) : Prop :=
  ∀ ⦃s s' : σ⦄ ⦃e : ParseError⦄, a s = some (.error (.parse e), s') → e.position = Cursor.pos s'

namespace FailsInPlace

variable {a : Action σ α}

/-- No recoverable failure is none about another position. -/
theorem of_ne (h : ∀ s s' e, a s ≠ some (.error (.parse e), s')) : FailsInPlace a :=
  fun s s' e hfail => absurd hfail (h s s' e)

theorem pure (v : α) : FailsInPlace (pure v : Action σ α) := of_ne nofun

theorem ask (q : σ → α) : FailsInPlace (ask q) := of_ne nofun

theorem spent : FailsInPlace (spent : Action σ α) := of_ne nofun

theorem error (message : String) : FailsInPlace (error message : Action σ α) := by
  rintro s _ _ ⟨⟩
  rfl

theorem bind {f : α → Action σ β} (ha : FailsInPlace a) (hf : ∀ v, FailsInPlace (f v)) :
    FailsInPlace (a.bind f) := by
  intro s s' e h
  obtain h | ⟨v, s₁, -, h⟩ := bind_eq_error_iff.1 h
  · exact ha h
  · exact hf v h

/-- Only the handler's failures are left. -/
theorem recover {handler : ParseError → Action σ α} (hhandler : ∀ e, FailsInPlace (handler e)) :
    FailsInPlace (a.recover handler) := by
  intro s s' e h
  obtain ⟨e₀, s₁, -, h⟩ := recover_eq_parse_iff.1 h
  exact hhandler e₀ h

theorem map (f : α → β) (ha : FailsInPlace a) : FailsInPlace (a.map f) := ha.bind fun _ => pure _

/-- Another message is about the same position. -/
theorem label (message : String) (ha : FailsInPlace a) : FailsInPlace (a.label message) := by
  intro s s' e h
  obtain ⟨e₀, s₁, h, hfail⟩ := recover_eq_parse_iff.1 h
  cases hfail
  exact ha (e := e₀) h

theorem observe : FailsInPlace a.observe := by
  intro s s' e h
  rw [Action.observe] at h
  rcases hout : a s with _ | ⟨x, s₁⟩ <;> rw [hout] at h <;> cases h

end FailsInPlace

/-! ## On an honest cursor -/

section Honest

variable (honest : Cursor.Honest σ)
include honest

theorem failsInPlace_peek : FailsInPlace (ofOp (Cursor.peek : σ → _)) := by
  intro s s' e h
  obtain ⟨hpos, hposition⟩ := honest.peek_refused (Option.some.inj h)
  exact hposition.trans hpos.symm

theorem failsInPlace_next : FailsInPlace (ofOp (Cursor.next : σ → _)) := by
  intro s s' e h
  obtain ⟨hpos, hposition⟩ := honest.next_refused (Option.some.inj h)
  exact hposition.trans hpos.symm

theorem failsInPlace_back (n : Nat) : FailsInPlace (ofOp (Cursor.back n : σ → _)) := by
  intro s s' e h
  obtain ⟨hpos, hposition⟩ := honest.back_refused (Option.some.inj h)
  exact hposition.trans hpos.symm

/-- **An attempt that fails recoverably is back at its start**, and says so. -/
theorem pos_of_attempt {p : Action σ α} {s s' : σ} {e : ParseError}
    (h : attempt p s = some (.error (.parse e), s')) :
    Cursor.pos s' = Cursor.pos s ∧ e.position = Cursor.pos s := by
  obtain ⟨e₀, s₁, -, hrewind, rfl⟩ := attempt_eq_parse_iff.1 h
  exact ⟨honest.pos_rewind hrewind, rfl⟩

theorem failsInPlace_attempt (p : Action σ α) : FailsInPlace (attempt p) := by
  intro s s' e h
  obtain ⟨hpos, hposition⟩ := pos_of_attempt honest h
  exact hposition.trans hpos.symm

theorem failsInPlace_lookAhead (p : Action σ α) : FailsInPlace (lookAhead p) := by
  rw [lookAhead_eq]
  refine .bind (.ask _) fun start => .bind (failsInPlace_attempt honest p) fun v => ?_
  exact .map _ (.of_ne fun _ _ _ => rewind_ne_parse start)

/-! ### Repetition -/

omit honest in
theorem many_ne_parse (p : Action σ α) : ∀ (n : Nat) {s s' : σ} {e : ParseError},
    many n p s ≠ some (.error (.parse e), s')
  | 0, _, _, _ => nofun
  | n + 1, s, s', e => by
    intro h
    obtain h | ⟨found, s₁, -, h⟩ := bind_eq_error_iff.1 h
    · exact optional_ne_parse p h
    · cases found with
      | none => cases h
      | some v => exact many_ne_parse p n (map_eq_error_iff.1 h)

/-- A repetition without a round is back at its start. -/
theorem pos_of_many_nil {p : Action σ α} {n : Nat} {s s' : σ}
    (h : many n p s = some (.ok [], s')) : Cursor.pos s' = Cursor.pos s := by
  cases n with
  | zero => cases h
  | succ n =>
    obtain ⟨found, s₁, hfound, h⟩ := bind_eq_ok_iff.1 h
    cases found with
    | none =>
      cases h
      obtain ⟨e, hattempt⟩ := optional_eq_none_iff.1 hfound
      exact (pos_of_attempt honest hattempt).1
    | some v =>
      obtain ⟨vs, s₂, -, h⟩ := bind_eq_ok_iff.1 h
      cases h

theorem failsInPlace_manyOne (n : Nat) (p : Action σ α) : FailsInPlace (manyOne n p) := by
  intro s s' e h
  obtain h | ⟨values, s₁, hmany, h⟩ := bind_eq_error_iff.1 h
  · exact absurd h (many_ne_parse p n)
  · cases values with
    | nil =>
      cases h
      exact (pos_of_many_nil honest hmany).symm
    | cons v vs => cases h

theorem failsInPlace_scan (accepts : τ → Bool) (step : τ → β → β) (init : β) : ∀ n : Nat,
    FailsInPlace (scan accepts step init n : Action σ β)
  | 0 => .spent
  | n + 1 => by
    refine .bind (.ask _) fun ended => ?_
    cases ended with
    | true => exact .pure init
    | false =>
      refine .bind (failsInPlace_peek honest) fun seen => ?_
      cases accepts seen with
      | true =>
        refine .bind (failsInPlace_next honest) fun _ => ?_
        exact (failsInPlace_scan accepts step init n).map _
      | false => exact .pure init

/-! ### Choice -/

/-- However many alternatives have failed, the cursor is back at the start. -/
theorem failsInPlace_alt (ps : List (Action σ α)) : FailsInPlace (alt ps) := by
  intro s s' e h
  rw [alt] at h
  generalize hstart : Cursor.pos s = start at h
  induction ps generalizing s with
  | nil =>
    cases h
    exact hstart.symm
  | cons p ps ih =>
    obtain ⟨e₀, s₁, hattempt, hrest⟩ := recover_eq_parse_iff.1 h
    exact ih ((pos_of_attempt honest hattempt).1.trans hstart) hrest

end Honest

end Action

/-! ## Parsers -/

/-- The class of parsers that raise recoverable failures only about the current position. -/
def neverRaising (f : Feature) : Prop := f ≠ .raise

theorem Parser.failsInPlace_denote (honest : Cursor.Honest σ)
    {rule : ∀ β : Type, N β → Action σ β} (hrule : ∀ β (r : N β), (rule β r).FailsInPlace)
    (n : Nat) {p : Parser N τ α} (hp : p.Within neverRaising) : (p.denote rule n).FailsInPlace := by
  induction p with
  | pure a => exact .pure a
  | bind p f ihp ihf => exact (ihp hp.1).bind fun a => ihf a (hp.2 a)
  | call r => exact hrule _ r
  | atEnd => exact .ask _
  | position => exact .ask _
  | peek => exact Action.failsInPlace_peek honest
  | next => exact Action.failsInPlace_next honest
  | back k => exact Action.failsInPlace_back honest k
  | error message => exact .error message
  | raise f =>
    cases f with
    | parse e => exact absurd rfl (hp rfl)
    | stream e => exact .of_ne nofun
  | recover p handler ihp ihhandler => exact .recover fun e => ihhandler e (hp.2.1 e)
  | label message p ih => exact (ih hp).label message
  | observe p ih => exact .observe
  | attempt p ih => exact Action.failsInPlace_attempt honest _
  | optional p ih => exact .of_ne fun _ _ _ => Action.optional_ne_parse _
  | lookAhead p ih => exact Action.failsInPlace_lookAhead honest _
  | many p ih => exact .of_ne fun _ _ _ => Action.many_ne_parse _ n
  | manyOne p ih => exact Action.failsInPlace_manyOne honest n _
  | choice ps ih =>
    rw [denote, Action.firstOf_eq_alt]
    exact Action.failsInPlace_alt honest _
  | nested ps ih => exact Action.failsInPlace_alt honest _
  | scan accepts step init => exact Action.failsInPlace_scan honest accepts step init n

theorem Grammar.failsInPlace_unfold (honest : Cursor.Honest σ) {G : Grammar N τ}
    (hG : G.Within neverRaising) (n : Nat) :
    ∀ β (r : N β), (G.unfold n β r : Action σ β).FailsInPlace := by
  induction n with
  | zero => exact fun _ _ => .spent
  | succ n ih => exact fun _ r => Parser.failsInPlace_denote honest ih n (hG r)

/-- **A recoverable failure is about where the cursor is left.**  On an honest cursor, whatever
parser of the class fails recoverably, at whatever depth of attempts, repetitions and rules: the
position of the failure is the position of the cursor as the run leaves it.  The array cursor, the
zipper, the reader and the faulty cursor are honest. -/
theorem position_eq_pos_of_yields :
    (∀ {N : Type → Type} {σ τ α : Type} [Cursor σ τ], Cursor.Honest σ →
      ∀ {G : Grammar N τ} {p : Parser N τ α}, G.Within neverRaising → p.Within neverRaising →
        ∀ {s s' : σ} {e : ParseError}, G.Yields p s (.error (.parse e)) s' →
          e.position = Cursor.pos s') ∧
      (∀ τ : Type, Cursor.Honest (ArrayCursor τ) ∧ Cursor.Honest (ListCursor τ) ∧
        Cursor.Honest (FaultyCursor τ)) ∧
      Cursor.Honest Reader := by
  refine ⟨?_, fun τ => ⟨ArrayCursor.indexed.honest, ListCursor.indexed.honest, FaultyCursor.honest⟩,
    Reader.honest⟩
  intro N σ τ α _ honest G p hG hp s s' e h
  obtain ⟨n, hn⟩ := h
  exact Parser.failsInPlace_denote honest (Grammar.failsInPlace_unfold honest hG n) n hp hn

/-- A parser that takes two symbols and then attempts to step back over both, in vain. -/
def rewoundTooFar : Parser (fun _ => Empty) UInt8 Unit :=
  .bind .next fun _ => .bind .next fun _ =>
    .attempt (.bind (.back 2) fun _ => .error "rewound too far")

/-- A cursor that steps back only once, so that the attempt has to be undone by taking again. -/
def onceBack : FaultyCursor UInt8 := ⟨.ofList [97, 98, 99], false, [], none, some 1⟩

theorem rewoundTooFar_in_place :
    let G : Grammar (fun _ => Empty) UInt8 := ⟨fun r => nomatch r⟩
    ∃ s', G.Yields rewoundTooFar onceBack (.error (.parse ⟨"rewound too far", 2⟩)) s' ∧
      (⟨"rewound too far", 2⟩ : ParseError).position = Cursor.pos s' := by
  intro G
  have hrun : G.Yields rewoundTooFar onceBack (.error (.parse ⟨"rewound too far", 2⟩))
      ⟨⟨#[97, 98, 99], 2, by decide⟩, false, [], none, some 0⟩ := ⟨1, rfl⟩
  have hG : G.Within neverRaising := fun r => nomatch r
  have hp : rewoundTooFar.Within neverRaising :=
    ⟨trivial, fun _ => ⟨trivial, fun _ => ⟨nofun, fun _ => trivial⟩⟩⟩
  exact ⟨_, hrun, position_eq_pos_of_yields.1 FaultyCursor.honest hG hp hrun⟩

end Backtrack
