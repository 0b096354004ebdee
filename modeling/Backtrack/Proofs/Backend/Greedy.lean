import Backtrack.Proofs.Backend.Backtracking
import Backtrack.Proofs.Parser.Position

/-!
# Proofs/Backend/Greedy — a repetition goes on as long as it can

    m ──p──▸ v₁, m₁ ──p──▸ v₂, m₂ ── … ──p──▸ vₙ, mₙ ──p──▸ ✗

The rounds of a repetition are the successes of `p` in a row (`Rounds`).  What the repetition does
from the first cursor it does from the last, with the values of the rounds in front
(`Rounds.yields_many_iff`).  So the last cursor decides: the round that fails there is undone, or
fatal, or has no end.

**That there is a last round** takes progress: over loaded data, rounds that each get further are no
more than the symbols that are left.
-/

namespace Backtrack

variable {N : Type → Type} {σ τ α β : Type}

/-! ## One round -/

namespace Grammar

variable [Cursor σ τ] {G : Grammar N τ} {p : Parser N τ α} {s s' : σ}

/-- Rounds and depth are bounded apart from each other, and more of either keeps a finished
answer. -/
theorem many_run_mono {n m k l : Nat} (hnm : n ≤ m) (hkl : k ≤ l)
    {out : Except Failure (List α) × σ} (h : (G.run n p).many k s = some out) :
    (G.run m p).many l s = some out := by
  have hG : G.Within fun _ => True := G.within_of_all fun _ => trivial
  have hp : p.Within fun _ => True := p.within_of_all fun _ => trivial
  have hrun := ParserSimulation.refl.run (σ := σ) hG hnm hp
  exact (ParserSimulation.refl.many hrun hkl (Eq.refl s)).eq_some h

/-- **A round of a repetition**, whatever the budget. -/
theorem yields_many_iff {x : Except Failure (List α)} : G.Yields (.many p) s x s' ↔
    (x = .ok [] ∧ ∃ e, G.Yields (.attempt p) s (.error (.parse e)) s') ∨
    (∃ fatal, x = .error (.stream fatal) ∧ G.Yields (.attempt p) s (.error (.stream fatal)) s') ∨
    ∃ v s₁ y, G.Yields p s (.ok v) s₁ ∧ G.Yields (.many p) s₁ y s' ∧ x = y.map (v :: ·) := by
  constructor
  · rintro ⟨_ | n, h⟩
    · cases h
    obtain ⟨rfl, e, hattempt⟩ | ⟨fatal, rfl, hattempt⟩ | ⟨v, s₁, y, hp, hmany, rfl⟩ :=
      Action.many_succ_eq_some_iff.1 h
    · exact .inl ⟨rfl, e, n + 1, hattempt⟩
    · exact .inr (.inl ⟨fatal, rfl, n + 1, hattempt⟩)
    · have hmore := many_run_mono (Nat.le_refl (n + 1)) (Nat.le_succ n) hmany
      exact .inr (.inr ⟨v, s₁, y, ⟨n + 1, hp⟩, ⟨n + 1, hmore⟩, rfl⟩)
  · rintro (⟨rfl, e, n, h⟩ | ⟨fatal, rfl, n, h⟩ | ⟨v, s₁, y, ⟨n, hp⟩, ⟨m, hmany⟩, rfl⟩)
    · have h' := run_mono (Nat.le_succ n) h
      exact ⟨n + 1, Action.many_succ_eq_some_iff.2 (.inl ⟨rfl, e, h'⟩)⟩
    · have h' := run_mono (Nat.le_succ n) h
      exact ⟨n + 1, Action.many_succ_eq_some_iff.2 (.inr (.inl ⟨fatal, rfl, h'⟩))⟩
    · have hn : n ≤ max n m + 1 := by omega
      have hm : m ≤ max n m + 1 := by omega
      have hmore := many_run_mono hm (Nat.le_max_right n m) hmany
      refine ⟨max n m + 1, Action.many_succ_eq_some_iff.2 (.inr (.inr ?_))⟩
      exact ⟨v, s₁, y, run_mono hn hp, hmore, rfl⟩

/-- After a round with a value, the repetition goes on from where that ends. -/
theorem Yields.many_iff {v : α} {s₁ : σ} (hround : G.Yields p s (.ok v) s₁)
    {x : Except Failure (List α)} : G.Yields (.many p) s x s' ↔
      ∃ y, G.Yields (.many p) s₁ y s' ∧ x = y.map (v :: ·) := by
  have hattempt : G.Yields (.attempt p) s (.ok v) s₁ :=
    hround.imp fun n hn => Action.attempt_of_ne hn nofun
  rw [yields_many_iff]
  constructor
  · rintro (⟨-, e, hfailed⟩ | ⟨fatal, -, hfailed⟩ | ⟨v', s₁', y, hround', hmany, hx⟩)
    · cases (hattempt.unique hfailed).1
    · cases (hattempt.unique hfailed).1
    · obtain ⟨⟨⟩, rfl⟩ := hround.unique hround'
      exact ⟨y, hmany, hx⟩
  · rintro ⟨y, hmany, hx⟩
    exact .inr (.inr ⟨v, s₁, y, hround, hmany, hx⟩)

theorem yields_manyOne_iff {x : Except Failure (List α)} : G.Yields (.manyOne p) s x s' ↔
    (G.Yields (.many p) s x s' ∧ x ≠ .ok []) ∨ (G.Yields (.many p) s (.ok []) s' ∧
      x = .error (.parse ⟨"no parses succeeded", Cursor.pos s⟩)) := by
  simp only [Yields, run, Parser.denote, Action.manyOne_eq_some_iff, exists_or, exists_and_right]

/-! ### What never fails recoverably -/

theorem not_yields_many_parse {e : ParseError} :
    ¬ G.Yields (.many p) s (.error (.parse e)) s' := by
  rintro ⟨n, h⟩
  exact Action.many_ne_parse _ n h

theorem not_yields_optional_parse {e : ParseError} :
    ¬ G.Yields (.optional p) s (.error (.parse e)) s' := by
  rintro ⟨n, h⟩
  exact Action.optional_ne_parse _ h

theorem not_yields_sepBy_parse {separator : Parser N τ β} {e : ParseError} :
    ¬ G.Yields (.sepBy p separator) s (.error (.parse e)) s' := by
  rintro ⟨n, h⟩
  obtain hfirst | ⟨found, s₁, -, hothers⟩ := Action.bind_eq_error_iff.1 h
  · exact Action.optional_ne_parse _ hfirst
  · cases found with
    | none => cases hothers
    | some first =>
      obtain hmany | ⟨others, s₂, -, hpure⟩ := Action.bind_eq_error_iff.1 hothers
      · exact Action.many_ne_parse _ n hmany
      · cases hpure

end Grammar

/-! ## Many rounds -/

/-- **Successes of `p` in a row**, each further on than the one before. -/
inductive Rounds [Cursor σ τ] (G : Grammar N τ) (p : Parser N τ α) : σ → List α → σ → Prop where
  | nil (s : σ) : Rounds G p s [] s
  | cons {s s₁ s' : σ} {v : α} {vs : List α} (hround : G.Yields p s (.ok v) s₁)
      (hpos : Cursor.pos s < Cursor.pos s₁) (hrest : Rounds G p s₁ vs s') :
      Rounds G p s (v :: vs) s'

namespace Rounds

variable [Cursor σ τ] {G : Grammar N τ} {p : Parser N τ α} {s s' : σ} {vs : List α}

/-- Each round takes a symbol at least. -/
theorem pos_add_length_le (h : Rounds G p s vs s') : Cursor.pos s + vs.length ≤ Cursor.pos s' := by
  induction h with
  | nil => exact Nat.le_refl _
  | cons hround hpos hrest ih =>
    rw [List.length_cons]
    omega

/-- **What a repetition does after some rounds**, it does from the start, with their values in
front. -/
theorem yields_many_iff (h : Rounds G p s vs s') {x : Except Failure (List α)} {s₂ : σ} :
    G.Yields (.many p) s x s₂ ↔ ∃ y, G.Yields (.many p) s' y s₂ ∧ x = y.map (vs ++ ·) := by
  induction h generalizing x with
  | nil s =>
    have hmap : ∀ y : Except Failure (List α), y.map ([] ++ ·) = y := by rintro (_ | _) <;> rfl
    simp only [hmap, exists_eq_right']
  | @cons s s₁ s' v vs hround hpos hrest ih =>
    have hmap : ∀ y : Except Failure (List α),
        y.map (v :: vs ++ ·) = (y.map (vs ++ ·)).map (v :: ·) := by rintro (_ | _) <;> rfl
    simp only [hround.many_iff, ih, hmap]
    constructor
    · rintro ⟨_, ⟨y, hmany, rfl⟩, rfl⟩
      exact ⟨y, hmany, rfl⟩
    · rintro ⟨y, hmany, rfl⟩
      exact ⟨_, ⟨y, hmany, rfl⟩, rfl⟩

end Rounds

/-! ## Over loaded data -/

namespace ArrayCursor

variable {G : Grammar N τ} {p : Parser N τ α} {m m' : ArrayCursor τ}

/-- What fails recoverably fails as an attempt, about the start and there. -/
theorem yields_attempt_of_parse {e : ParseError} {c : ArrayCursor τ}
    (h : G.Yields p m (.error (.parse e)) c) :
    G.Yields (.attempt p) m (.error (.parse ⟨e.message, m.pos⟩)) m := by
  obtain ⟨m₂, hattempt, hpos, hdata⟩ := (indexed.undoes G p m.pos_le_length).undone h trivial
  obtain rfl : m₂ = m := eq_of_toList_eq (hdata.trans (indexed.items_of_yields h)) hpos
  exact hattempt

/-- **A failed attempt leaves the very cursor it found.** -/
theorem yields_attempt_parse_iff : (∃ e, G.Yields (.attempt p) m (.error (.parse e)) m') ↔
    m' = m ∧ ∃ e c, G.Yields p m (.error (.parse e)) c := by
  constructor
  · rintro ⟨e, hattempt⟩
    have hdata := indexed.items_of_yields hattempt
    obtain ⟨n, hn⟩ := hattempt
    obtain ⟨e₀, c, hp, hrewind, -⟩ := Action.attempt_eq_parse_iff.1 hn
    exact ⟨eq_of_toList_eq hdata (indexed.honest.pos_rewind hrewind), e₀, c, n, hp⟩
  · rintro ⟨rfl, e, c, hp⟩
    exact ⟨_, yields_attempt_of_parse hp⟩

/-- The return of an attempt is never refused, so a fatal failure is that of `p`. -/
theorem yields_attempt_stream_iff {fatal : StreamError} :
    G.Yields (.attempt p) m (.error (.stream fatal)) m' ↔
      G.Yields p m (.error (.stream fatal)) m' := by
  refine ⟨?_, fun h => (indexed.undoes G p m.pos_le_length).passed h nofun⟩
  rintro ⟨n, hn⟩
  obtain hp | ⟨e₀, c, hp, hrefused⟩ := Action.attempt_eq_stream_iff.1 hn
  · exact ⟨n, hp⟩
  · obtain ⟨m₂, hattempt, -⟩ := (indexed.undoes G p m.pos_le_length).undone ⟨n, hp⟩ trivial
    cases (hattempt.unique ⟨n, hn⟩).1

/-- **A round of a repetition over loaded data.** -/
theorem yields_many_iff {x : Except Failure (List α)} : G.Yields (.many p) m x m' ↔
    (x = .ok [] ∧ m' = m ∧ ∃ e c, G.Yields p m (.error (.parse e)) c) ∨
    (∃ fatal, x = .error (.stream fatal) ∧ G.Yields p m (.error (.stream fatal)) m') ∨
    ∃ v m₁ y, G.Yields p m (.ok v) m₁ ∧ G.Yields (.many p) m₁ y m' ∧ x = y.map (v :: ·) := by
  rw [Grammar.yields_many_iff]
  simp only [yields_attempt_parse_iff, yields_attempt_stream_iff]

/-- A repetition without a round leaves the very cursor it found. -/
theorem eq_of_yields_many_nil (h : G.Yields (.many p) m (.ok []) m') : m' = m := by
  obtain ⟨-, rfl, -⟩ | ⟨fatal, hx, -⟩ | ⟨v, m₁, y, -, -, hx⟩ := yields_many_iff.1 h
  · rfl
  · cases hx
  · cases y <;> cases hx

/-- **Progress makes for a last round.**  If every success of `p` over the data gets further, there
are rounds that no other can follow. -/
theorem exists_rounds (hp : ∀ {c c' : ArrayCursor τ} {v : α}, c.toList = m.toList →
      G.Yields p c (.ok v) c' → c.pos < c'.pos) :
    ∃ vs m', Rounds G p m vs m' ∧ m'.toList = m.toList ∧ ∀ v c, ¬ G.Yields p m' (.ok v) c := by
  -- by induction on the number of symbols left
  generalize hleft : m.toList.length - m.pos = left
  induction left using Nat.strongRecOn generalizing m with
  | ind left ih =>
    by_cases hround : ∃ v c, G.Yields p m (.ok v) c
    · obtain ⟨v, m₁, hround⟩ := hround
      have hdata : m₁.toList = m.toList := indexed.items_of_yields hround
      have hpos := hp rfl hround
      have hfewer : m₁.toList.length - m₁.pos < left := by
        have hend := m₁.pos_le_length
        rw [hdata] at hend ⊢
        change m₁.pos ≤ _ at hend
        omega
      obtain ⟨vs, m', hrounds, hdata', hlast⟩ :=
        ih _ hfewer (fun hc => hp (hc.trans hdata)) rfl
      exact ⟨v :: vs, m', .cons hround hpos hrounds, hdata'.trans hdata, hlast⟩
    · exact ⟨[], m, .nil m, rfl, fun v c h => hround ⟨v, c, h⟩⟩

end ArrayCursor

/-! ## The law -/

/-- **How a repetition from `s` ends after rounds with the values `vs` up to `s'`**, by what `p`
does there. -/
inductive Concludes [Cursor σ τ] (G : Grammar N τ) (p : Parser N τ α) (s : σ) (vs : List α)
    (s' : σ) : Prop where
  /-- The last round is undone, whatever it did to the cursor. -/
  | undone {e : ParseError} {c : σ} (hlast : G.Yields p s' (.error (.parse e)) c)
      (hmany : G.Yields (.many p) s (.ok vs) s')
  /-- The last round is fatal, and leaves the cursor where it does. -/
  | fatal {e : StreamError} {c : σ} (hlast : G.Yields p s' (.error (.stream e)) c)
      (hmany : G.Yields (.many p) s (.error (.stream e)) c)
  /-- The last round has no end. -/
  | endless (hlast : ∀ x c, ¬ G.Yields p s' x c) (hmany : ∀ x c, ¬ G.Yields (.many p) s x c)

theorem Rounds.concludes {G : Grammar N τ} {p : Parser N τ α} {m m' : ArrayCursor τ} {vs : List α}
    (h : Rounds G p m vs m') (hlast : ∀ v c, ¬ G.Yields p m' (.ok v) c) :
    Concludes G p m vs m' := by
  by_cases hends : ∃ x c, G.Yields p m' x c
  · obtain ⟨(e | e) | v, c, hp⟩ := hends
    · have hstop := ArrayCursor.yields_many_iff.2 (.inl ⟨rfl, rfl, e, c, hp⟩)
      exact .undone hp (h.yields_many_iff.2 ⟨_, hstop, by simp [Except.map]⟩)
    · have hstop := ArrayCursor.yields_many_iff.2 (.inr (.inl ⟨e, rfl, hp⟩))
      exact .fatal hp (h.yields_many_iff.2 ⟨_, hstop, rfl⟩)
    · exact absurd hp (hlast v c)
  · refine .endless (fun x c hp => hends ⟨x, c, hp⟩) fun x c hmany => hends ?_
    obtain ⟨y, hmany, -⟩ := h.yields_many_iff.1 hmany
    obtain ⟨-, -, e, c', hp⟩ | ⟨fatal, -, hp⟩ | ⟨v, m₁, -, hp, -⟩ :=
      ArrayCursor.yields_many_iff.1 hmany
    · exact ⟨_, c', hp⟩
    · exact ⟨_, c, hp⟩
    · exact ⟨_, m₁, hp⟩

/-- **A repetition goes on as long as it can.**  Over loaded data, for every `p` whose successes get
further: there are rounds, no more than symbols left, that no other can follow, and how the last one
fails is how the repetition ends; so it ends if `p` always does.  A repetition that has to succeed
once differs only where there is no round.  On any cursor whatsoever, neither a repetition nor an
option nor a list with separators fails recoverably. -/
theorem many_goes_on_while_it_can :
    (∀ {N : Type → Type} {τ α : Type} {G : Grammar N τ} {p : Parser N τ α} {m : ArrayCursor τ},
      (∀ {c c' : ArrayCursor τ} {v : α}, c.toList = m.toList → G.Yields p c (.ok v) c' →
        c.pos < c'.pos) →
      (∃ vs m', Rounds G p m vs m' ∧ vs.length ≤ m.toList.length - m.pos ∧
        Concludes G p m vs m') ∧
      ((∀ c : ArrayCursor τ, c.toList = m.toList → ∃ x c', G.Yields p c x c') →
        ∃ x c, G.Yields (.many p) m x c) ∧
      ∀ {x c}, G.Yields (.manyOne p) m x c ↔ (G.Yields (.many p) m x c ∧ x ≠ .ok []) ∨
        (G.Yields (.many p) m (.ok []) c ∧ c = m ∧
          x = .error (.parse ⟨"no parses succeeded", m.pos⟩))) ∧
    ∀ {N : Type → Type} {σ τ α β : Type} [Cursor σ τ] {G : Grammar N τ} {p : Parser N τ α}
      {separator : Parser N τ β} {s s' : σ} {e : ParseError},
      ¬ G.Yields (.many p) s (.error (.parse e)) s' ∧
      ¬ G.Yields (.optional p) s (.error (.parse e)) s' ∧
      ¬ G.Yields (.sepBy p separator) s (.error (.parse e)) s' := by
  constructor
  · intro N τ α G p m hp
    obtain ⟨vs, m', hrounds, hdata, hlast⟩ := ArrayCursor.exists_rounds hp
    have hconcludes := hrounds.concludes hlast
    refine ⟨⟨vs, m', hrounds, ?_, hconcludes⟩, fun hends => ?_, fun {x c} => ?_⟩
    · have htaken := hrounds.pos_add_length_le
      have hend := m'.pos_le_length
      rw [hdata] at hend
      exact Nat.le_sub_of_add_le' (Nat.le_trans htaken hend)
    · cases hconcludes with
      | undone _ hmany => exact ⟨_, _, hmany⟩
      | fatal _ hmany => exact ⟨_, _, hmany⟩
      | endless hnever =>
        obtain ⟨x, c, hlast⟩ := hends m' hdata
        exact absurd hlast (hnever x c)
    · rw [Grammar.yields_manyOne_iff]
      refine or_congr_right ⟨fun h => ?_, fun h => ⟨h.1, h.2.2⟩⟩
      exact ⟨h.1, ArrayCursor.eq_of_yields_many_nil h.1, h.2⟩
  · intros
    exact ⟨Grammar.not_yields_many_parse, Grammar.not_yields_optional_parse,
      Grammar.not_yields_sepBy_parse⟩

/-- Takes a symbol and a `b` after it; where there is none, steps back below its start. -/
def beforeB : Parser (fun _ => Empty) UInt8 UInt8 :=
  .bind .next fun a => .bind .next fun b =>
    if b = 98 then .pure a else .bind (.back 3) fun _ => .error "no b"

theorem pos_lt_of_yields_beforeB {G : Grammar (fun _ => Empty) UInt8} {c c' : ArrayCursor UInt8}
    {v : UInt8} (h : G.Yields beforeB c (.ok v) c') : c.pos < c'.pos := by
  obtain ⟨n, hn⟩ := h
  obtain ⟨a, c₁, hfirst, hn⟩ := Action.bind_eq_ok_iff.1 hn
  obtain ⟨b, c₂, hsecond, hn⟩ := Action.bind_eq_ok_iff.1 hn
  have hpos₁ : c₁.pos = c.pos + 1 := ArrayCursor.indexed.honest.pos_next (Option.some.inj hfirst)
  have hpos₂ : c₂.pos = c₁.pos + 1 := ArrayCursor.indexed.honest.pos_next (Option.some.inj hsecond)
  dsimp only at hn
  split at hn
  · cases hn
    omega
  · obtain ⟨_, c₃, -, herror⟩ := Action.bind_eq_ok_iff.1 hn
    cases herror

/-- In `abac` there is one round; the next takes two symbols, steps back over three and is
undone. -/
theorem beforeB_goes_on_once :
    let G : Grammar (fun _ => Empty) UInt8 := ⟨fun r => nomatch r⟩
    let m := ArrayCursor.ofList [97, 98, 97, 99]
    let m' : ArrayCursor UInt8 := ⟨#[97, 98, 97, 99], 2, by decide⟩
    (∃ c, G.Yields beforeB m' (.error (.parse ⟨"no b", 1⟩)) c ∧ c.pos = 1) ∧
      G.Yields (.many beforeB) m (.ok [97]) m' ∧
      ∃ vs m', Rounds G beforeB m vs m' ∧ vs.length ≤ 4 ∧ Concludes G beforeB m vs m' := by
  intro G m m'
  refine ⟨⟨⟨#[97, 98, 97, 99], 1, by decide⟩, ⟨1, rfl⟩, rfl⟩, ⟨2, rfl⟩, ?_⟩
  exact (many_goes_on_while_it_can.1 fun _ => pos_lt_of_yields_beforeB).1

end Backtrack
