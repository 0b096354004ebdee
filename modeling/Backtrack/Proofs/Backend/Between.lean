import Backtrack.Parser.Symbol
import Backtrack.Proofs.Backend.Greedy
import Backtrack.Proofs.Parser.Yields

/-!
# Proofs/Backend/Between — parsers that go through loaded data symbol by symbol

    before ▸ b :: after   ──next──▸   before ++ [b] ▸ after

Every cursor over loaded data is *between* what is behind it and what is ahead of it, and a parser
that takes a text moves it from one side to the other.  A parser for one symbol (`Takes`) repeated
takes as many accepted symbols as there are: they are its rounds, and the first symbol that is not
accepted is the end of them.
-/

namespace Backtrack

variable {N : Type → Type} {τ α β : Type}

/-! ## The cursor between two lists -/

namespace ArrayCursor

/-- **The cursor with `before` behind it and `after` ahead of it.** -/
def between (before after : List τ) : ArrayCursor τ where
  items := (before ++ after).toArray
  pos := before.length
  pos_le := by
    rw [List.size_toArray, List.length_append]
    exact Nat.le_add_right _ _

variable (before after : List τ) (b : τ)

@[simp] theorem toList_between : (between before after).toList = before ++ after := rfl

@[simp] theorem pos_between : (between before after).pos = before.length := rfl

theorem getElem?_between_pos :
    (between before after).toList[(between before after).pos]? = after.head? := by
  rw [toList_between, pos_between, List.getElem?_append_right (Nat.le_refl _), Nat.sub_self,
    List.head?_eq_getElem?]

theorem yields_peek_nil (G : Grammar N τ) : G.Yields .peek (between before [])
    (.error (Cursor.peekPastEnd before.length)) (between before []) := by
  refine ⟨0, congrArg (fun seen => some (seen, between before [])) ?_⟩
  rw [peek_eq_peekAt, Cursor.peekAt, getElem?_between_pos]
  rfl

theorem yields_peek_cons (G : Grammar N τ) :
    G.Yields .peek (between before (b :: after)) (.ok b) (between before (b :: after)) := by
  refine ⟨0, congrArg (fun seen => some (seen, between before (b :: after))) ?_⟩
  rw [peek_eq_peekAt, Cursor.peekAt, getElem?_between_pos]
  rfl

theorem yields_next_cons (G : Grammar N τ) :
    G.Yields .next (between before (b :: after)) (.ok b) (between (before ++ [b]) after) := by
  have hnext := (between before (b :: after)).next_eq_nextAt
  rw [Cursor.nextAt, getElem?_between_pos] at hnext
  obtain ⟨hresult, hpos⟩ := Prod.mk.inj hnext
  refine ⟨0, congrArg some (Prod.ext hresult (eq_of_toList_eq ?_ ?_))⟩
  · exact (toList_next _).trans (List.append_cons before b after)
  · exact hpos.trans (@List.length_append _ before [b]).symm

@[simp] theorem remaining_between : (between before after).remaining = after :=
  @List.drop_left _ before after

/-- The cursor `k` symbols further on, at most at the end. -/
def advance (m : ArrayCursor τ) (k : Nat) : ArrayCursor τ :=
  ⟨m.items, min (m.pos + k) m.items.size, Nat.min_le_right _ _⟩

theorem advance_between (text : List τ) :
    (between before (text ++ after)).advance text.length = between (before ++ text) after := by
  refine eq_of_toList_eq ?_ ?_
  · simp [advance, between, toList]
  · simp [advance, between]

/-- A text that is ahead is passed in full. -/
theorem pos_advance_between {text : List τ} (h : text <+: after) :
    ((between before after).advance text.length).pos = before.length + text.length := by
  obtain ⟨rest, rfl⟩ := h
  rw [advance_between, pos_between, List.length_append]

theorem between_remaining (m : ArrayCursor τ) : between (m.toList.take m.pos) m.remaining = m := by
  refine eq_of_toList_eq (List.take_append_drop m.pos m.toList) ?_
  rw [pos_between, List.length_take]
  exact Nat.min_eq_left m.pos_le

/-- What may fail recoverably and is optional leaves the cursor as it was. -/
theorem yields_optional_of_parse {G : Grammar N τ} {p : Parser N τ α} {m : ArrayCursor τ}
    (h : ∃ e c, G.Yields p m (.error (.parse e)) c) : G.Yields (.optional p) m (.ok none) m :=
  Grammar.yields_optional_iff.2 (.inl ⟨rfl, yields_attempt_parse_iff.2 ⟨rfl, h⟩⟩)

end ArrayCursor

open ArrayCursor (between)

/-! ## One symbol -/

/-- **A parser for one symbol**: it takes an accepted one, with a value that depends on nothing
else, and fails recoverably where there is none. -/
structure Takes (G : Grammar N τ) (p : Parser N τ α) (accepts : τ → Bool) (value : τ → α) :
    Prop where
  taken : ∀ {b : τ}, accepts b = true → ∀ before after : List τ,
    G.Yields p (between before (b :: after)) (.ok (value b)) (between (before ++ [b]) after)
  refused : ∀ {after : List τ}, (∀ b ∈ after.head?, accepts b = false) → ∀ before : List τ,
    ∃ e c, G.Yields p (between before after) (.error (.parse e)) c

theorem takes_test (G : Grammar N τ) (accepts : τ → Bool) (message : String) :
    Takes G (.test accepts message) accepts id where
  taken {b} hb before after := by
    refine (ArrayCursor.yields_peek_cons before after b G).bind ?_
    rw [if_pos hb]
    exact ArrayCursor.yields_next_cons before after b G
  refused {after} hafter before := by
    rcases after with _ | ⟨b, after⟩
    · exact ⟨_, _, (ArrayCursor.yields_peek_nil before G).bind_error _⟩
    · have herror : G.Yields (if accepts b then .next else .error message)
          (between before (b :: after)) (.error (.parse ⟨message, before.length⟩))
          (between before (b :: after)) := by
        rw [hafter b rfl]
        exact Grammar.yields_error message
      exact ⟨_, _, (ArrayCursor.yields_peek_cons before after b G).bind herror⟩

namespace Takes

variable {G : Grammar N τ} {p : Parser N τ α} {accepts : τ → Bool} {value : τ → α}
  (h : Takes G p accepts value)
include h

/-- Another value of the same symbol. -/
theorem map (f : α → β) : Takes G (.bind p fun a => .pure (f a)) accepts (f ∘ value) where
  taken hb before after := (h.taken hb before after).bind (Grammar.yields_pure _)
  refused hafter before := by
    obtain ⟨e, c, hrefused⟩ := h.refused hafter before
    exact ⟨e, c, hrefused.bind_error _⟩

/-! ### Repeated -/

/-- **A repetition takes all accepted symbols** up to the first that is not. -/
theorem yields_many {text after : List τ} (htext : ∀ b ∈ text, accepts b = true)
    (hafter : ∀ b ∈ after.head?, accepts b = false) (before : List τ) :
    G.Yields (.many p) (between before (text ++ after)) (.ok (text.map value))
      (between (before ++ text) after) := by
  induction text generalizing before with
  | nil =>
    rw [List.append_nil]
    exact ArrayCursor.yields_many_iff.2 (.inl ⟨rfl, rfl, h.refused hafter before⟩)
  | cons b text ih =>
    obtain ⟨hb, htext⟩ := List.forall_mem_cons.1 htext
    have hrest := ih htext (before ++ [b])
    rw [List.append_assoc] at hrest
    exact (h.taken hb before (text ++ after)).many_iff.2 ⟨_, hrest, rfl⟩

theorem yields_manyOne {text after : List τ} (hne : text ≠ [])
    (htext : ∀ b ∈ text, accepts b = true) (hafter : ∀ b ∈ after.head?, accepts b = false)
    (before : List τ) :
    G.Yields (.manyOne p) (between before (text ++ after)) (.ok (text.map value))
      (between (before ++ text) after) := by
  refine Grammar.yields_manyOne_iff.2 (.inl ⟨h.yields_many htext hafter before, ?_⟩)
  simpa using hne

/-- Where there is nothing to repeat, a repetition that has to succeed once fails. -/
theorem yields_manyOne_refused {after : List τ} (hafter : ∀ b ∈ after.head?, accepts b = false)
    (before : List τ) :
    G.Yields (.manyOne p) (between before after)
      (.error (.parse ⟨"no parses succeeded", before.length⟩)) (between before after) := by
  have hnone : ∀ b ∈ ([] : List τ), accepts b = true := nofun
  have hmany := h.yields_many hnone hafter before
  rw [List.append_nil] at hmany
  exact Grammar.yields_manyOne_iff.2 (.inr ⟨hmany, rfl⟩)

end Takes

end Backtrack
