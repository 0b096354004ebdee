import Backtrack.Proofs.Action.Simulation

/-!
# Proofs/Action/Inversion — what an action must have done to end as it did

A chain that yields a value yields one at each link, and one that fails has failed at one of them.
A recoverable failure of `recover` is the handler's own; of an attempt, it is the failure of what
was attempted, told about the start *after a return that worked out*.  An optional action has no
recoverable failure at all.
-/

namespace Backtrack.Action

variable {σ τ α β γ : Type} {s s' : σ} {f : Failure} {e : ParseError}

/-! ## The two ways to go on -/

theorem bind_eq_ok_iff {p : Action σ α} {k : α → Action σ β} {b : β} :
    p.bind k s = some (.ok b, s') ↔ ∃ a s₁, p s = some (.ok a, s₁) ∧ k a s₁ = some (.ok b, s') := by
  rw [bind]
  rcases p s with _ | ⟨_ | a, s₁⟩ <;> simp

theorem bind_eq_error_iff {p : Action σ α} {k : α → Action σ β} :
    p.bind k s = some (.error f, s') ↔ p s = some (.error f, s') ∨
      ∃ a s₁, p s = some (.ok a, s₁) ∧ k a s₁ = some (.error f, s') := by
  rw [bind]
  rcases p s with _ | ⟨_ | a, s₁⟩ <;> simp

theorem map_eq_error_iff {p : Action σ α} {g : α → β} :
    p.map g s = some (.error f, s') ↔ p s = some (.error f, s') := by
  rw [map, bind_eq_error_iff]
  simp [pure]

theorem map_eq_some_iff {p : Action σ α} {g : α → β} {x : Except Failure β} :
    p.map g s = some (x, s') ↔ ∃ y, p s = some (y, s') ∧ x = y.map g := by
  rw [map, bind]
  rcases p s with _ | ⟨f | a, s₁⟩ <;> simp [pure, Except.map, and_comm, eq_comm]

/-- What comes out of two runs, with one function applied to both values. -/
theorem map_congr {p q : Action σ α} (g : α → β) (h : p s = q s') : p.map g s = q.map g s' := by
  rw [map, map, bind, bind, h]

theorem map_map (p : Action σ α) (g : α → β) (g' : β → γ) :
    (p.map g).map g' = p.map fun a => g' (g a) := bind_assoc p _ _

theorem recover_eq_parse_iff {p : Action σ α} {handler : ParseError → Action σ α} :
    p.recover handler s = some (.error (.parse e), s') ↔
      ∃ e₀ s₁, p s = some (.error (.parse e₀), s₁) ∧
        handler e₀ s₁ = some (.error (.parse e), s') := by
  rw [recover]
  rcases p s with _ | ⟨(_ | _) | _, s₁⟩ <;> simp

theorem recover_of_ne {p : Action σ α} {handler : ParseError → Action σ α} {x : Except Failure α}
    (h : p s = some (x, s')) (hx : ∀ e, x ≠ .error (.parse e)) :
    p.recover handler s = some (x, s') := by
  rw [recover, h]
  rcases x with (e | e) | a
  · exact absurd rfl (hx e)
  · rfl
  · rfl

/-! ## Attempts -/

variable [Cursor σ τ]

theorem rewind_eq_some_iff {target : Nat} {x : Except Failure Unit} :
    (rewind target : Action σ Unit) s = some (x, s') ↔ Cursor.rewind target s = (x, s') :=
  Option.some_inj

/-- A return has no recoverable failure: a refusal is fatal. -/
theorem rewind_ne_parse (target : Nat) :
    (rewind target : Action σ Unit) s ≠ some (.error (.parse e), s') := by
  rw [rewind_eq_must, must, Ne, recover_eq_parse_iff]
  rintro ⟨e₀, s₁, -, h⟩
  cases h

/-- **Where an attempt fails recoverably, what was attempted has**, and the return has worked
out. -/
theorem attempt_eq_parse_iff {p : Action σ α} :
    attempt p s = some (.error (.parse e), s') ↔
      ∃ e₀ s₁, p s = some (.error (.parse e₀), s₁) ∧
        Cursor.rewind (Cursor.pos s) s₁ = (.ok (), s') ∧ e = e₀.relocate (Cursor.pos s) := by
  refine recover_eq_parse_iff.trans (exists_congr fun e₀ => exists_congr fun s₁ => ?_)
  refine and_congr_right fun _ => ?_
  rw [bind_eq_error_iff]
  constructor
  · rintro (h | ⟨⟨⟩, s₂, hrewind, hfail⟩)
    · exact absurd h (rewind_ne_parse _)
    · cases hfail
      exact ⟨rewind_eq_some_iff.1 hrewind, rfl⟩
  · rintro ⟨hrewind, rfl⟩
    exact .inr ⟨(), s', rewind_eq_some_iff.2 hrewind, rfl⟩

/-- **Where an attempt fails fatally, what was attempted has, or the return was refused.** -/
theorem attempt_eq_stream_iff {p : Action σ α} {fatal : StreamError} :
    attempt p s = some (.error (.stream fatal), s') ↔ p s = some (.error (.stream fatal), s') ∨
      ∃ e₀ s₁, p s = some (.error (.parse e₀), s₁) ∧
        Cursor.rewind (Cursor.pos s) s₁ = (.error (.stream fatal), s') := by
  rw [attempt, recover]
  rcases p s with _ | ⟨(e₀ | _) | _, s₁⟩
  · simp
  · simp [bind_eq_error_iff, rewind_eq_some_iff, fail]
  · simp
  · simp

/-- A value and a fatal failure pass through an attempt. -/
theorem attempt_of_ne {p : Action σ α} {x : Except Failure α} (h : p s = some (x, s'))
    (hx : ∀ e, x ≠ .error (.parse e)) : attempt p s = some (x, s') := recover_of_ne h hx

/-- An attempt has no value but that of what was attempted. -/
theorem attempt_eq_ok_iff {p : Action σ α} {a : α} :
    attempt p s = some (.ok a, s') ↔ p s = some (.ok a, s') := by
  refine ⟨fun h => ?_, fun h => attempt_of_ne h nofun⟩
  rw [attempt, recover] at h
  rcases hp : p s with _ | ⟨(e | e) | b, s₁⟩ <;> rw [hp] at h
  · cases h
  · obtain ⟨⟨⟩, s₂, -, hfail⟩ := bind_eq_ok_iff.1 h
    cases hfail
  · cases h
  · exact h

/-- A return that is refused is what the attempt ends in. -/
theorem attempt_of_refused {p : Action σ α} {s₁ : σ} (h : p s = some (.error (.parse e), s₁))
    (hrewind : Cursor.rewind (Cursor.pos s) s₁ = (.error f, s')) :
    attempt p s = some (.error f, s') := by
  rw [attempt, recover, h]
  exact bind_eq_error_iff.2 (.inl (rewind_eq_some_iff.2 hrewind))

theorem optional_ne_parse (p : Action σ α) : optional p s ≠ some (.error (.parse e), s') := by
  rw [optional, Ne, recover_eq_parse_iff]
  rintro ⟨e₀, s₁, -, h⟩
  cases h

/-- **An optional action** is an attempt whose recoverable failure is no value. -/
theorem optional_eq_some_iff {p : Action σ α} {x : Except Failure (Option α)} :
    optional p s = some (x, s') ↔
      (x = .ok none ∧ ∃ e, attempt p s = some (.error (.parse e), s')) ∨
      (∃ fatal, x = .error (.stream fatal) ∧
        attempt p s = some (.error (.stream fatal), s')) ∨
      ∃ a, x = .ok (some a) ∧ attempt p s = some (.ok a, s') := by
  rw [optional, recover, map, bind]
  rcases attempt p s with _ | ⟨(e | e) | a, s₁⟩ <;> simp [pure, eq_comm, and_comm]

/-- An optional action without a value is an attempt that failed. -/
theorem optional_eq_none_iff {p : Action σ α} :
    optional p s = some (.ok none, s') ↔ ∃ e, attempt p s = some (.error (.parse e), s') := by
  rw [optional, recover, map, bind]
  rcases attempt p s with _ | ⟨(e | e) | a, s₁⟩ <;> simp [pure]

/-- **A look ahead that works out** has a value and a return that works out. -/
theorem lookAhead_eq_ok_iff {p : Action σ α} {a : α} :
    lookAhead p s = some (.ok a, s') ↔
      ∃ s₁, p s = some (.ok a, s₁) ∧ Cursor.rewind (Cursor.pos s) s₁ = (.ok (), s') := by
  rw [lookAhead, bind_eq_ok_iff]
  constructor
  · rintro ⟨b, s₁, hattempt, hmap⟩
    obtain ⟨⟨⟩, s₂, hrewind, hpure⟩ := bind_eq_ok_iff.1 hmap
    cases hpure
    exact ⟨s₁, attempt_eq_ok_iff.1 hattempt, rewind_eq_some_iff.1 hrewind⟩
  · rintro ⟨s₁, hp, hrewind⟩
    refine ⟨a, s₁, attempt_eq_ok_iff.2 hp, ?_⟩
    exact bind_eq_ok_iff.2 ⟨(), s', rewind_eq_some_iff.2 hrewind, rfl⟩

/-- …and one that fails recoverably is an attempt that does. -/
theorem lookAhead_eq_parse_iff {p : Action σ α} :
    lookAhead p s = some (.error (.parse e), s') ↔ attempt p s = some (.error (.parse e), s') := by
  rw [lookAhead, bind_eq_error_iff]
  refine ⟨?_, .inl⟩
  rintro (h | ⟨a, s₁, -, hmap⟩)
  · exact h
  · exact absurd (map_eq_error_iff.1 hmap) (rewind_ne_parse _)

/-! ## Repetition -/

/-- **A round of a repetition**: it is undone and the repetition over, or it fails fatally, or it
has a value and the repetition goes on. -/
theorem many_succ_eq_some_iff {p : Action σ α} {n : Nat} {x : Except Failure (List α)} :
    many (n + 1) p s = some (x, s') ↔
      (x = .ok [] ∧ ∃ e, attempt p s = some (.error (.parse e), s')) ∨
      (∃ fatal, x = .error (.stream fatal) ∧
        attempt p s = some (.error (.stream fatal), s')) ∨
      ∃ a s₁ y, p s = some (.ok a, s₁) ∧ many n p s₁ = some (y, s') ∧ x = y.map (a :: ·) := by
  simp only [← attempt_eq_ok_iff (p := p)]
  rw [many, bind, optional, recover, map, bind]
  rcases attempt p s with _ | ⟨(e | e) | a, s₁⟩
  · simp
  · simp [pure, eq_comm, and_comm]
  · simp [eq_comm]
  · simp [pure, map_eq_some_iff]

/-- **A repetition that has to succeed once** is a repetition, unless that comes to nothing. -/
theorem manyOne_eq_some_iff {p : Action σ α} {n : Nat} {x : Except Failure (List α)} :
    manyOne n p s = some (x, s') ↔ (many n p s = some (x, s') ∧ x ≠ .ok []) ∨
      (many n p s = some (.ok [], s') ∧
        x = .error (.parse ⟨"no parses succeeded", Cursor.pos s⟩)) := by
  rw [manyOne, bind]
  rcases many n p s with _ | ⟨f | _ | ⟨a, as⟩, s₁⟩
  · simp
  · constructor
    · rintro ⟨⟩
      exact .inl ⟨rfl, by rintro ⟨⟩⟩
    · rintro (⟨h, -⟩ | ⟨⟨⟩, -⟩)
      exact h
  · constructor
    · rintro ⟨⟩
      exact .inr ⟨rfl, rfl⟩
    · rintro (⟨⟨⟩, hne⟩ | ⟨⟨⟩, rfl⟩)
      · exact absurd rfl hne
      · rfl
  · constructor
    · rintro ⟨⟩
      exact .inl ⟨rfl, by rintro ⟨⟩⟩
    · rintro (⟨h, -⟩ | ⟨⟨⟩, -⟩)
      exact h

end Backtrack.Action
