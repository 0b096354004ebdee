import Backtrack.Proofs.Backend.Greedy
import Backtrack.Proofs.Backend.Oblivious
import Backtrack.Proofs.Parser.Yields

/-!
# Proofs/Backend/Separated — a list never ends after a separator

    m ──item──▸ v₁, m₁ ──separator, item──▸ v₂, m₂ ── … ──▸ vₙ, mₙ ──separator, item──▸ ✗

A row is `item (separator item)*` (`Row`): one item, and then rounds of "a separator and an item".
So a list with separators is an optional item and a repetition of such rounds, and where the
repetition ends is the end of the last item, however far the round that failed there had come.

**That there is a last round** takes progress of a separator *together with* the item after it; by
itself a separator may match nothing.
-/

namespace Backtrack

variable {N : Type → Type} {σ τ α β : Type}

/-! ## A list is an item and a repetition -/

namespace Grammar

variable [Cursor σ τ] {G : Grammar N τ} {item : Parser N τ α} {separator : Parser N τ β} {s s' : σ}
  {x : Except Failure (List α)}

theorem yields_sepBy_iff : G.Yields (.sepBy item separator) s x s' ↔
      (x = .ok [] ∧ ∃ e, G.Yields (.attempt item) s (.error (.parse e)) s') ∨
      (∃ fatal, x = .error (.stream fatal) ∧
        G.Yields (.attempt item) s (.error (.stream fatal)) s') ∨
      ∃ v s₁ y, G.Yields item s (.ok v) s₁ ∧
        G.Yields (.many (.bind separator fun _ => item)) s₁ y s' ∧ x = y.map (v :: ·) := by
  constructor
  · intro h
    obtain ⟨fault, rfl, hfirst⟩ | ⟨found, s₁, hfirst, hothers⟩ := yields_bind_iff.1 h
    · obtain ⟨⟨⟩, -⟩ | ⟨fatal, ⟨⟩, hattempt⟩ | ⟨_, ⟨⟩, -⟩ := yields_optional_iff.1 hfirst
      exact .inr (.inl ⟨fatal, rfl, hattempt⟩)
    · obtain ⟨⟨⟩, hattempt⟩ | ⟨_, ⟨⟩, -⟩ | ⟨v, ⟨⟩, hitem⟩ := yields_optional_iff.1 hfirst
      · obtain ⟨rfl, rfl⟩ := hothers.unique (yields_pure [])
        exact .inl ⟨rfl, hattempt⟩
      · refine .inr (.inr ⟨v, s₁, ?_⟩)
        obtain ⟨fault, rfl, hmany⟩ | ⟨vs, s₂, hmany, hpure⟩ := yields_bind_iff.1 hothers
        · exact ⟨.error fault, hitem, hmany, rfl⟩
        · obtain ⟨rfl, rfl⟩ := hpure.unique (yields_pure (v :: vs))
          exact ⟨.ok vs, hitem, hmany, rfl⟩
  · rintro (⟨rfl, hattempt⟩ | ⟨fatal, rfl, hattempt⟩ | ⟨v, s₁, y, hitem, hmany, rfl⟩)
    · exact (yields_optional_iff.2 (.inl ⟨rfl, hattempt⟩)).bind (yields_pure [])
    · exact (yields_optional_iff.2 (.inr (.inl ⟨fatal, rfl, hattempt⟩))).bind_error _
    · refine (yields_optional_iff.2 (.inr (.inr ⟨v, rfl, hitem⟩))).bind ?_
      cases y with
      | error fault => exact hmany.bind_error _
      | ok vs => exact hmany.bind (yields_pure (v :: vs))

/-- After an item, the list goes on as the repetition does. -/
theorem Yields.sepBy_iff {v : α} {s₁ : σ} (hitem : G.Yields item s (.ok v) s₁) :
    G.Yields (.sepBy item separator) s x s' ↔
      ∃ y, G.Yields (.many (.bind separator fun _ => item)) s₁ y s' ∧ x = y.map (v :: ·) := by
  have hattempt := yields_attempt_ok_iff.2 hitem
  rw [yields_sepBy_iff]
  constructor
  · rintro (⟨-, e, hfailed⟩ | ⟨fatal, -, hfailed⟩ | ⟨v', s₁', y, hitem', hmany, hx⟩)
    · cases (hattempt.unique hfailed).1
    · cases (hattempt.unique hfailed).1
    · obtain ⟨⟨⟩, rfl⟩ := hitem.unique hitem'
      exact ⟨y, hmany, hx⟩
  · rintro ⟨y, hmany, hx⟩
    exact .inr (.inr ⟨v, s₁, y, hitem, hmany, hx⟩)

end Grammar

/-! ## Rows -/

/-- **`item (separator item)*`**, from `s` to the end of the last item. -/
inductive Row [Cursor σ τ] (G : Grammar N τ) (item : Parser N τ α) (separator : Parser N τ β) :
    σ → List α → σ → Prop where
  | last {s s' : σ} {v : α} (hitem : G.Yields item s (.ok v) s') : Row G item separator s [v] s'
  | cons {s s₁ s₂ s' : σ} {v : α} {w : β} {vs : List α} (hitem : G.Yields item s (.ok v) s₁)
      (hseparator : G.Yields separator s₁ (.ok w) s₂) (hrest : Row G item separator s₂ vs s') :
      Row G item separator s (v :: vs) s'

/-- An item, and after it rounds of a separator and an item, are a row. -/
theorem Rounds.row [Cursor σ τ] {G : Grammar N τ} {item : Parser N τ α}
    {separator : Parser N τ β} {s s₁ s' : σ} {v : α} {vs : List α}
    (h : Rounds G (.bind separator fun _ => item) s₁ vs s') (hitem : G.Yields item s (.ok v) s₁) :
    Row G item separator s (v :: vs) s' := by
  induction h generalizing s v with
  | nil => exact .last hitem
  | cons hround _ _ ih =>
    obtain ⟨_, ⟨⟩, -⟩ | ⟨w, s₂, hseparator, hnext⟩ := Grammar.yields_bind_iff.1 hround
    exact .cons hitem hseparator (ih hnext)

/-! ## Over loaded data -/

/-- **Every success of `p` over the data of `m` gets further.** -/
def Progress (G : Grammar N τ) (p : Parser N τ α) (m : ArrayCursor τ) : Prop :=
  ∀ ⦃c c' : ArrayCursor τ⦄ ⦃v : α⦄, c.toList = m.toList → G.Yields p c (.ok v) c' → c.pos < c'.pos

variable {G : Grammar N τ} {item : Parser N τ α} {separator : Parser N τ β} {m m' : ArrayCursor τ}

/-- No run changes the data, so progress goes on where a run ends. -/
theorem Progress.of_yields {p : Parser N τ α} (hp : Progress G p m) {q : Parser N τ β}
    {x : Except Failure β} (h : G.Yields q m x m') : Progress G p m' :=
  fun _ _ _ hc => hp (hc.trans (ArrayCursor.indexed.items_of_yields h))

/-- **A repetition is its rounds and how the one after them fails.** -/
theorem Progress.yields_many_iff {p : Parser N τ α} (hp : Progress G p m)
    {x : Except Failure (List α)} : G.Yields (.many p) m x m' ↔
      ∃ vs m₁, Rounds G p m vs m₁ ∧
        ((x = .ok vs ∧ m' = m₁ ∧ ∃ e c, G.Yields p m₁ (.error (.parse e)) c) ∨
          ∃ fatal, x = .error (.stream fatal) ∧ G.Yields p m₁ (.error (.stream fatal)) m') := by
  constructor
  · intro h
    obtain ⟨vs, m₁, hrounds, -, hlast⟩ := ArrayCursor.exists_rounds (hp · ·)
    refine ⟨vs, m₁, hrounds, ?_⟩
    cases hrounds.concludes hlast with
    | undone hfailed hmany =>
      obtain ⟨rfl, rfl⟩ := h.unique hmany
      exact .inl ⟨rfl, rfl, _, _, hfailed⟩
    | fatal hfailed hmany =>
      obtain ⟨rfl, rfl⟩ := h.unique hmany
      exact .inr ⟨_, rfl, hfailed⟩
    | endless _ hnever => exact absurd h (hnever x m')
  · rintro ⟨vs, m₁, hrounds, ⟨rfl, rfl, e, c, hfailed⟩ | ⟨fatal, rfl, hfailed⟩⟩
    · refine hrounds.yields_many_iff.2 ⟨.ok [], ?_, congrArg Except.ok (List.append_nil vs).symm⟩
      exact ArrayCursor.yields_many_iff.2 (.inl ⟨rfl, rfl, e, c, hfailed⟩)
    · refine hrounds.yields_many_iff.2 ⟨.error (.stream fatal), ?_, rfl⟩
      exact ArrayCursor.yields_many_iff.2 (.inr (.inl ⟨fatal, rfl, hfailed⟩))

/-- A row is an item, and after it rounds of a separator and an item. -/
theorem Row.exists_rounds {vs : List α} (h : Row G item separator m vs m')
    (hnext : Progress G (.bind separator fun _ => item) m) :
    ∃ v ws m₁, vs = v :: ws ∧ G.Yields item m (.ok v) m₁ ∧
      Rounds G (.bind separator fun _ => item) m₁ ws m' := by
  induction h with
  | @last m m' v hitem => exact ⟨v, [], m', rfl, hitem, .nil m'⟩
  | @cons m m₁ m₂ m' v w vs hitem hseparator _ ih =>
    have hafter := hnext.of_yields hitem
    obtain ⟨v', ws, m₃, rfl, hitem', hrounds⟩ := ih (hafter.of_yields hseparator)
    have hround := hseparator.bind (f := fun _ => item) hitem'
    exact ⟨v, v' :: ws, m₁, rfl, hitem, .cons hround (hafter rfl hround) hrounds⟩

/-- **What a list does after a row**: it goes on as the repetition does, with the row in front. -/
theorem Row.yields_sepBy_iff {vs : List α} {m₁ : ArrayCursor τ}
    (hrow : Row G item separator m vs m₁)
    (hnext : Progress G (.bind separator fun _ => item) m) {x : Except Failure (List α)} :
    G.Yields (.sepBy item separator) m x m' ↔
      ∃ y, G.Yields (.many (.bind separator fun _ => item)) m₁ y m' ∧ x = y.map (vs ++ ·) := by
  obtain ⟨v, ws, m₂, rfl, hitem, hrounds⟩ := hrow.exists_rounds hnext
  have hmap : ∀ y : Except Failure (List α),
      y.map (v :: ws ++ ·) = (y.map (ws ++ ·)).map (v :: ·) := by rintro (_ | _) <;> rfl
  simp only [hitem.sepBy_iff, hrounds.yields_many_iff, hmap]
  constructor
  · rintro ⟨_, ⟨y, hmany, rfl⟩, rfl⟩
    exact ⟨y, hmany, rfl⟩
  · rintro ⟨y, hmany, rfl⟩
    exact ⟨_, ⟨y, hmany, rfl⟩, rfl⟩

/-! ## The law -/

/-- **What a list with separators comes to from `s`.** -/
inductive Lists [Cursor σ τ] (G : Grammar N τ) (item : Parser N τ α) (separator : Parser N τ β)
    (s : σ) : Except Failure (List α) → σ → Prop where
  /-- There is no item. -/
  | empty {e : ParseError} {c : σ} (hitem : G.Yields item s (.error (.parse e)) c) :
      Lists G item separator s (.ok []) s
  /-- There is a row, and no separator and item after it; what they took is undone. -/
  | row {vs : List α} {s' : σ} (hrow : Row G item separator s vs s') {e : ParseError} {c : σ}
      (hlast : G.Yields (.bind separator fun _ => item) s' (.error (.parse e)) c) :
      Lists G item separator s (.ok vs) s'
  /-- The first item fails fatally. -/
  | fatal_first {e : StreamError} {c : σ} (hitem : G.Yields item s (.error (.stream e)) c) :
      Lists G item separator s (.error (.stream e)) c
  /-- The separator after a row fails fatally. -/
  | fatal_separator {vs : List α} {s₁ : σ} (hrow : Row G item separator s vs s₁) {e : StreamError}
      {c : σ} (hseparator : G.Yields separator s₁ (.error (.stream e)) c) :
      Lists G item separator s (.error (.stream e)) c
  /-- The item after that fails fatally. -/
  | fatal_item {vs : List α} {s₁ s₂ : σ} (hrow : Row G item separator s vs s₁) {w : β}
      (hseparator : G.Yields separator s₁ (.ok w) s₂) {e : StreamError} {c : σ}
      (hitem : G.Yields item s₂ (.error (.stream e)) c) :
      Lists G item separator s (.error (.stream e)) c

namespace Progress

variable (hnext : Progress G (.bind separator fun _ => item) m)
include hnext

theorem lists_of_many {v : α} {m₁ : ArrayCursor τ} (hitem : G.Yields item m (.ok v) m₁)
    {y : Except Failure (List α)}
    (hmany : G.Yields (.many (.bind separator fun _ => item)) m₁ y m') :
    Lists G item separator m (y.map (v :: ·)) m' := by
  obtain ⟨vs, m₂, hrounds, ⟨rfl, rfl, e, c, hlast⟩ | ⟨fatal, rfl, hlast⟩⟩ :=
    (hnext.of_yields hitem).yields_many_iff.1 hmany
  · exact .row (hrounds.row hitem) hlast
  · obtain ⟨_, ⟨⟩, hseparator⟩ | ⟨w, m₃, hseparator, hfailed⟩ := Grammar.yields_bind_iff.1 hlast
    · exact .fatal_separator (hrounds.row hitem) hseparator
    · exact .fatal_item (hrounds.row hitem) hseparator hfailed

theorem lists_of_yields {x : Except Failure (List α)}
    (h : G.Yields (.sepBy item separator) m x m') : Lists G item separator m x m' := by
  obtain ⟨rfl, hattempt⟩ | ⟨fatal, rfl, hattempt⟩ | ⟨v, m₁, y, hitem, hmany, rfl⟩ :=
    Grammar.yields_sepBy_iff.1 h
  · obtain ⟨rfl, e, c, hitem⟩ := ArrayCursor.yields_attempt_parse_iff.1 hattempt
    exact .empty hitem
  · exact .fatal_first (ArrayCursor.yields_attempt_stream_iff.1 hattempt)
  · exact hnext.lists_of_many hitem hmany

theorem yields_of_lists {x : Except Failure (List α)} (h : Lists G item separator m x m') :
    G.Yields (.sepBy item separator) m x m' := by
  -- a fatal failure after a row ends the repetition, and so the list
  have hfatal : ∀ {vs : List α} {m₁ : ArrayCursor τ} {e : StreamError},
      Row G item separator m vs m₁ →
      G.Yields (.bind separator fun _ => item) m₁ (.error (.stream e)) m' →
      G.Yields (.sepBy item separator) m (.error (.stream e)) m' := fun {vs m₁ e} hrow hlast =>
    (hrow.yields_sepBy_iff hnext).2
      ⟨_, ArrayCursor.yields_many_iff.2 (.inr (.inl ⟨e, rfl, hlast⟩)), rfl⟩
  cases h with
  | empty hitem =>
    refine Grammar.yields_sepBy_iff.2 (.inl ⟨rfl, ?_⟩)
    exact ArrayCursor.yields_attempt_parse_iff.2 ⟨rfl, _, _, hitem⟩
  | @row vs _ hrow _ _ hlast =>
    refine (hrow.yields_sepBy_iff hnext).2
      ⟨.ok [], ?_, congrArg Except.ok (List.append_nil vs).symm⟩
    exact ArrayCursor.yields_many_iff.2 (.inl ⟨rfl, rfl, _, _, hlast⟩)
  | fatal_first hitem =>
    refine Grammar.yields_sepBy_iff.2 (.inr (.inl ⟨_, rfl, ?_⟩))
    exact ArrayCursor.yields_attempt_stream_iff.2 hitem
  | fatal_separator hrow hseparator => exact hfatal hrow (hseparator.bind_error _)
  | fatal_item hrow hseparator hitem => exact hfatal hrow (hseparator.bind hitem)

/-- **A list ends exactly if the runs it makes do**: that of the first item, and after every row
that of a separator and an item. -/
theorem exists_yields_sepBy_iff : (∃ x m', G.Yields (.sepBy item separator) m x m') ↔
    (∃ x c, G.Yields item m x c) ∧ ∀ vs m₁, Row G item separator m vs m₁ →
      ∃ x c, G.Yields (.bind separator fun _ => item) m₁ x c := by
  constructor
  · rintro ⟨x, m', h⟩
    refine ⟨?_, fun vs m₁ hrow => ?_⟩
    · obtain ⟨-, hattempt⟩ | ⟨fatal, -, hattempt⟩ | ⟨v, m₁, -, hitem, -⟩ :=
        Grammar.yields_sepBy_iff.1 h
      · obtain ⟨-, e, c, hitem⟩ := ArrayCursor.yields_attempt_parse_iff.1 hattempt
        exact ⟨_, c, hitem⟩
      · exact ⟨_, m', ArrayCursor.yields_attempt_stream_iff.1 hattempt⟩
      · exact ⟨_, m₁, hitem⟩
    · obtain ⟨y, hmany, -⟩ := (hrow.yields_sepBy_iff hnext).1 h
      obtain ⟨-, -, e, c, hp⟩ | ⟨fatal, -, hp⟩ | ⟨v, m₂, -, hp, -⟩ :=
        ArrayCursor.yields_many_iff.1 hmany
      · exact ⟨_, c, hp⟩
      · exact ⟨_, m', hp⟩
      · exact ⟨_, m₂, hp⟩
  · rintro ⟨⟨(e | e) | v, m₁, hitem⟩, hrows⟩
    · exact ⟨_, _, hnext.yields_of_lists (.empty hitem)⟩
    · exact ⟨_, _, hnext.yields_of_lists (.fatal_first hitem)⟩
    · obtain ⟨vs, m₂, hrounds, -, hlast⟩ :=
        ArrayCursor.exists_rounds (hnext.of_yields hitem · ·)
      cases hrounds.concludes hlast with
      | undone _ hmany => exact ⟨_, _, hitem.sepBy_iff.2 ⟨_, hmany, rfl⟩⟩
      | fatal _ hmany => exact ⟨_, _, hitem.sepBy_iff.2 ⟨_, hmany, rfl⟩⟩
      | endless hnever =>
        obtain ⟨x, c, hp⟩ := hrows _ m₂ (hrounds.row hitem)
        exact absurd hp (hnever x c)

end Progress

theorem Row.toList_eq {vs : List α} (h : Row G item separator m vs m') : m'.toList = m.toList := by
  induction h with
  | last hitem => exact ArrayCursor.indexed.items_of_yields hitem
  | cons hitem hseparator _ ih =>
    have hafter := ArrayCursor.indexed.items_of_yields hseparator
    exact ih.trans (hafter.trans (ArrayCursor.indexed.items_of_yields hitem))

/-- **A list never ends after a separator.**  Over loaded data, for all parsers such that a
separator with the item after it gets further: what the list yields is nothing, where there is no
item; or the values of a row that no separator and item can follow, with the cursor at the end of
its last item; or the fatal failure of an item or a separator.  It ends exactly if the runs it makes
do, and so whenever item and separator always end. -/
theorem sepBy_ends_after_item (hnext : Progress G (.bind separator fun _ => item) m) :
    (∀ {x m'}, G.Yields (.sepBy item separator) m x m' ↔ Lists G item separator m x m') ∧
    ((∃ x m', G.Yields (.sepBy item separator) m x m') ↔
      (∃ x c, G.Yields item m x c) ∧ ∀ vs m₁, Row G item separator m vs m₁ →
        ∃ x c, G.Yields (.bind separator fun _ => item) m₁ x c) ∧
    ((∀ c : ArrayCursor τ, c.toList = m.toList →
        (∃ x c', G.Yields item c x c') ∧ ∃ x c', G.Yields separator c x c') →
      ∃ x m', G.Yields (.sepBy item separator) m x m') := by
  refine ⟨⟨hnext.lists_of_yields, hnext.yields_of_lists⟩, hnext.exists_yields_sepBy_iff,
    fun hends => hnext.exists_yields_sepBy_iff.2 ⟨(hends m rfl).1, fun vs m₁ hrow => ?_⟩⟩
  obtain ⟨fault | w, c, hseparator⟩ := (hends m₁ hrow.toList_eq).2
  · exact ⟨_, c, hseparator.bind_error _⟩
  · have hdata := (ArrayCursor.indexed.items_of_yields hseparator).trans hrow.toList_eq
    obtain ⟨x, c', hitem⟩ := (hends c hdata).1
    exact ⟨x, c', hseparator.bind hitem⟩

/-- Space by itself may be nothing, but it is never behind its start, and a digit gets further. -/
theorem progress_spaced_digit (G : Grammar (fun _ => Empty) UInt8) (m : ArrayCursor UInt8) :
    Progress G (.bind .whitespace fun _ => .satisfy Byte.isDigit) m := by
  intro c c' v _ h
  have hG : G.Within featureless := fun r => nomatch r
  obtain ⟨_, ⟨⟩, -⟩ | ⟨_, c₁, ⟨n, hspace⟩, hdigit⟩ := Grammar.yields_bind_iff.1 h
  have hspaced : c.pos ≤ c₁.pos :=
    (Grammar.oblivious_run hG n Parser.within_whitespace).pos_le hspace
  obtain ⟨_, ⟨⟩, -⟩ | ⟨b, c₂, ⟨k, hpeek⟩, hnext⟩ := Grammar.yields_bind_iff.1 hdigit
  obtain rfl : c₁ = c₂ := (Prod.mk.inj (Option.some.inj hpeek)).2
  split at hnext
  · obtain ⟨l, hl⟩ := hnext
    have hpos : c'.pos = c₁.pos + 1 := ArrayCursor.indexed.honest.pos_next (Option.some.inj hl)
    omega
  · cases (hnext.unique (Grammar.yields_error _)).1

/-- In `1 23 x` the row ends after the third digit; the space behind it is taken in vain. -/
theorem spaced_digits_end_after_digit :
    let G : Grammar (fun _ => Empty) UInt8 := ⟨fun r => nomatch r⟩
    let digit : Parser (fun _ => Empty) UInt8 UInt8 := .satisfy Byte.isDigit
    let m := ArrayCursor.ofList [49, 32, 50, 51, 32, 120]
    let m' : ArrayCursor UInt8 := ⟨#[49, 32, 50, 51, 32, 120], 4, by decide⟩
    Progress G (.bind .whitespace fun _ => digit) m ∧
      (∃ e c, G.Yields (.bind .whitespace fun _ => digit) m' (.error (.parse e)) c ∧ c.pos = 5) ∧
      G.Yields (.sepBy digit .whitespace) m (.ok [49, 50, 51]) m' ∧
      Lists G digit .whitespace m (.ok [49, 50, 51]) m' := by
  intro G digit m m'
  have hnext := progress_spaced_digit G m
  have hyields : G.Yields (.sepBy digit .whitespace) m (.ok [49, 50, 51]) m' := ⟨4, rfl⟩
  refine ⟨hnext, ⟨_, ⟨#[49, 32, 50, 51, 32, 120], 5, by decide⟩, ⟨2, rfl⟩, rfl⟩, hyields, ?_⟩
  exact (sepBy_ends_after_item hnext).1.1 hyields

end Backtrack
