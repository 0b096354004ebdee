import Backtrack.Proofs.Action.Inversion
import Backtrack.Proofs.Parser.Simulation

/-!
# Proofs/Parser/Yields — what a run yields, part by part

A budget is all that stands between what an action does and what a parser yields.  A finished run
keeps its outcome under a larger budget, so the parts of a parser may be run apart from each other,
each with a budget of its own: the larger one serves both.
-/

namespace Backtrack.Grammar

variable {N : Type → Type} {σ τ α β : Type} [Cursor σ τ] {G : Grammar N τ} {s s' : σ}

theorem yields_pure (a : α) : G.Yields (.pure a) s (.ok a) s := ⟨0, rfl⟩

theorem yields_error (message : String) :
    G.Yields (.error message : Parser N τ α) s (.error (.parse ⟨message, Cursor.pos s⟩)) s :=
  ⟨0, rfl⟩

/-- **One parser after the other**: the first fails, or the second goes on from where it ends. -/
theorem yields_bind_iff {p : Parser N τ α} {f : α → Parser N τ β} {x : Except Failure β} :
    G.Yields (.bind p f) s x s' ↔
      (∃ fault, x = .error fault ∧ G.Yields p s (.error fault) s') ∨
      ∃ a s₁, G.Yields p s (.ok a) s₁ ∧ G.Yields (f a) s₁ x s' := by
  constructor
  · rintro ⟨n, h⟩
    cases x with
    | error fault =>
      obtain h | ⟨a, s₁, hp, hf⟩ := Action.bind_eq_error_iff.1 h
      · exact .inl ⟨fault, rfl, n, h⟩
      · exact .inr ⟨a, s₁, ⟨n, hp⟩, n, hf⟩
    | ok b =>
      obtain ⟨a, s₁, hp, hf⟩ := Action.bind_eq_ok_iff.1 h
      exact .inr ⟨a, s₁, ⟨n, hp⟩, n, hf⟩
  · rintro (⟨fault, rfl, n, h⟩ | ⟨a, s₁, ⟨n, hp⟩, m, hf⟩)
    · exact ⟨n, Action.bind_eq_error_iff.2 (.inl h)⟩
    · have hp' := run_mono (Nat.le_max_left n m) hp
      have hf' := run_mono (Nat.le_max_right n m) hf
      refine ⟨max n m, ?_⟩
      cases x with
      | error fault => exact Action.bind_eq_error_iff.2 (.inr ⟨a, s₁, hp', hf'⟩)
      | ok b => exact Action.bind_eq_ok_iff.2 ⟨a, s₁, hp', hf'⟩

theorem Yields.bind {p : Parser N τ α} {f : α → Parser N τ β} {a : α} {s₁ : σ}
    (hp : G.Yields p s (.ok a) s₁) {x : Except Failure β} (hf : G.Yields (f a) s₁ x s') :
    G.Yields (.bind p f) s x s' := yields_bind_iff.2 (.inr ⟨a, s₁, hp, hf⟩)

theorem Yields.bind_error {p : Parser N τ α} {fault : Failure}
    (hp : G.Yields p s (.error fault) s') (f : α → Parser N τ β) :
    G.Yields (.bind p f) s (.error fault) s' := yields_bind_iff.2 (.inl ⟨fault, rfl, hp⟩)

/-- An attempt has no value but that of what was attempted. -/
theorem yields_attempt_ok_iff {p : Parser N τ α} {a : α} :
    G.Yields (.attempt p) s (.ok a) s' ↔ G.Yields p s (.ok a) s' :=
  exists_congr fun _ => Action.attempt_eq_ok_iff

/-- **An optional parser** is an attempt whose recoverable failure is no value. -/
theorem yields_optional_iff {p : Parser N τ α} {x : Except Failure (Option α)} :
    G.Yields (.optional p) s x s' ↔
      (x = .ok none ∧ ∃ e, G.Yields (.attempt p) s (.error (.parse e)) s') ∨
      (∃ fatal, x = .error (.stream fatal) ∧ G.Yields (.attempt p) s (.error (.stream fatal)) s') ∨
      ∃ a, x = .ok (some a) ∧ G.Yields p s (.ok a) s' := by
  simp only [← yields_attempt_ok_iff (p := p)]
  simp only [Yields, run, Parser.denote, Action.optional_eq_some_iff]
  constructor
  · rintro ⟨n, ⟨rfl, e, h⟩ | ⟨fatal, rfl, h⟩ | ⟨a, rfl, h⟩⟩
    · exact .inl ⟨rfl, e, n, h⟩
    · exact .inr (.inl ⟨fatal, rfl, n, h⟩)
    · exact .inr (.inr ⟨a, rfl, n, h⟩)
  · rintro (⟨rfl, e, n, h⟩ | ⟨fatal, rfl, n, h⟩ | ⟨a, rfl, n, h⟩)
    · exact ⟨n, .inl ⟨rfl, e, h⟩⟩
    · exact ⟨n, .inr (.inl ⟨fatal, rfl, h⟩)⟩
    · exact ⟨n, .inr (.inr ⟨a, rfl, h⟩)⟩

end Backtrack.Grammar
