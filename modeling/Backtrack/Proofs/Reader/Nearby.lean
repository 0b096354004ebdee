import Backtrack.Proofs.Backend.Backtracking
import Backtrack.Proofs.Backend.Refinement
import Backtrack.Proofs.Parser.Position
import Backtrack.Proofs.Reader.Retention
import Backtrack.Text.Value

/-!
# Proofs/Reader/Nearby — attempts that every reader can undo

    base ────▸ start ── at most one byte ──▸ failure
                 ◂──────── undone ────────────┘

A reader keeps the byte it took last, whatever its configuration.  So an attempt that fails where it
started, or one byte further on, is undone (`simulated_attempt`).  A test of one symbol looks before
it takes and fails where it is; the fraction of a number fails behind its point at the latest.  What
is made of them follows the array cursor and is lost only where a byte cannot be loaded.
-/

namespace Backtrack.Reader

open Backtrack.Action (Simulated)

variable {N : Type → Type} {α β : Type} {source : Source} {config : ReaderConfig}

/-- **A byte could not be loaded.** -/
def Unread (e : StreamError) : Prop := ∃ position cause, e = .read position cause

/-- **An action follows the array cursor** unless a byte cannot be loaded. -/
def Shadows (source : Source) (config : ReaderConfig) (a : Action (ArrayCursor UInt8) α)
    (b : Action Reader α) : Prop := Simulated (InStep source config) Unread a b

/-- **An action that fails nearby**: where it fails recoverably, the window still has its start. -/
def FailsNearby (source : Source) (config : ReaderConfig) (b : Action Reader α) : Prop :=
  ∀ {r r' : Reader} {e : ParseError}, Invariant source config r →
    b r = some (.error (.parse e), r') → Visited source config r.pos r' ∧ r'.base ≤ r.pos

/-- An action that fails where it is fails nearby. -/
theorem failsNearby_of_still {b : Action Reader α}
    (h : ∀ {r r' : Reader} {e : ParseError}, b r = some (.error (.parse e), r') → r' = r) :
    FailsNearby source config b := by
  intro r r' e hr hfails
  obtain rfl := h hfails
  exact ⟨hr.visited, hr.base_le_pos⟩

/-! ## Attempts -/

section Attempt

variable {a : Action (ArrayCursor UInt8) α} {b : Action Reader α}
  (h : Shadows source config a b) (hnear : FailsNearby source config b)
include h hnear

/-- **What fails nearby may be attempted**: the return works out on both cursors. -/
theorem shadows_attempt : Shadows source config a.attempt b.attempt := by
  intro m r hstep
  have hfollows := h hstep
  rcases ha : a m with _ | ⟨x, m₁⟩
  · rw [Action.attempt, Action.recover, ha]
    exact .spent _
  rw [ha] at hfollows
  generalize hb : b r = y at hfollows
  cases hfollows with
  | @agree x _ r₁ hstep₁ =>
    by_cases hx : ∃ e, x = .error (.parse e)
    · obtain ⟨e, rfl⟩ := hx
      obtain ⟨hvisited, hbase⟩ := hnear hstep.invariant hb
      have hle : m.pos ≤ m₁.toList.length := by
        rw [hstep₁.toList_eq, ← hstep.toList_eq]
        exact m.pos_le_length
      obtain ⟨m₂, hrewind, hpos, hitems⟩ := ArrayCursor.indexed.exists_rewind hle
      have hm : a.attempt m = some (.error (.parse (e.relocate m.pos)), m₂) :=
        Action.attempt_eq_parse_iff.2 ⟨e, m₁, ha, hrewind, rfl⟩
      have hr : b.attempt r
          = some (.error (.parse (e.relocate r.pos)), { r₁ with pos := r.pos }) :=
        Action.attempt_eq_parse_iff.2 ⟨e, r₁, hb, hvisited.rewind_eq hbase, rfl⟩
      rw [hm, hr, ← hstep.pos_eq]
      refine .agree _ ⟨?_, hitems.trans hstep₁.toList_eq, hpos⟩
      rw [hstep.pos_eq]
      exact (hvisited.movedTo hbase (Nat.le_refl _)).toInvariant
    · have hne : ∀ e, x ≠ .error (.parse e) := fun e he => hx ⟨e, he⟩
      rw [Action.attempt_of_ne ha hne, Action.attempt_of_ne hb hne]
      exact .agree x hstep₁
  | astray hlost =>
    rw [Action.attempt_of_ne hb (by rintro _ ⟨⟩)]
    exact .astray hlost

theorem shadows_optional : Shadows source config a.optional b.optional :=
  ((shadows_attempt h hnear).map some).recover fun _ => .pure none

end Attempt

/-! ## Looking and taking -/

theorem shadows_peek : Shadows source config (Action.ofOp Cursor.peek) (Action.ofOp Cursor.peek) :=
  fun _ _ h => .of_eq h.peek_eq h

theorem shadows_next : Shadows source config (Action.ofOp Cursor.next) (Action.ofOp Cursor.next) :=
  simulated_next fun _ _ => ⟨_, _, rfl⟩

theorem shadows_error (message : String) :
    Shadows source config (Action.error message : Action _ α) (Action.error message) :=
  .error InStep.pos_eq message

variable (G : Grammar N UInt8) (n : Nat)

theorem shadows_test (accepts : UInt8 → Bool) (message : String) :
    Shadows source config (G.run n (.test accepts message)) (G.run n (.test accepts message)) := by
  refine shadows_peek.bind fun seen => ?_
  dsimp only
  by_cases haccepts : accepts seen = true
  · rw [if_pos haccepts]
    exact shadows_next
  · rw [if_neg haccepts]
    exact shadows_error message

/-- **A test takes the next byte or fails where it is.** -/
theorem run_test_cases (accepts : UInt8 → Bool) (message : String) (r : Reader) :
    G.run n (.test accepts message) r = some (Cursor.next r) ∨
      ∃ e, G.run n (.test accepts message) r = some (.error (.parse e), r) := by
  have hrun : G.run n (.test accepts message) r
      = (Action.ofOp Cursor.peek).bind (fun seen =>
          G.run n (if accepts seen then .next else .error message)) r := rfl
  have hpeek : Action.ofOp Cursor.peek r = some (r.peek, r) := rfl
  rw [hrun, Action.bind, hpeek, peek]
  rcases r.current? with _ | seen
  · exact .inr ⟨_, rfl⟩
  · by_cases haccepts : accepts seen = true
    · simp only [if_pos haccepts]
      exact .inl rfl
    · simp only [if_neg haccepts]
      exact .inr ⟨_, rfl⟩

theorem eq_of_test_refused {accepts : UInt8 → Bool} {message : String} {r r' : Reader}
    {e : ParseError} (h : G.run n (.test accepts message) r = some (.error (.parse e), r')) :
    r' = r := by
  obtain htake | ⟨e', hfails⟩ := run_test_cases G n accepts message r
  · have hnext : r.next = (.error (.parse e), r') := Option.some.inj (htake.symm.trans h)
    have htaken := taken_next r
    rw [hnext] at htaken
    cases htaken with
    | ended => rfl
  · exact (congrArg Prod.snd (Option.some.inj (hfails.symm.trans h))).symm

theorem next_of_test {accepts : UInt8 → Bool} {message : String} {r r' : Reader} {b : UInt8}
    (h : G.run n (.test accepts message) r = some (.ok b, r')) : Cursor.next r = (.ok b, r') := by
  obtain htake | ⟨e', hfails⟩ := run_test_cases G n accepts message r
  · exact Option.some.inj (htake.symm.trans h)
  · cases hfails.symm.trans h

theorem failsNearby_test (accepts : UInt8 → Bool) (message : String) :
    FailsNearby source config (G.run n (.test accepts message)) :=
  failsNearby_of_still (eq_of_test_refused G n)

/-! ## The parts of a number -/

/-- A minus sign, or none. -/
theorem shadows_sign : Shadows source config (G.run n .sign) (G.run n .sign) :=
  (shadows_optional (shadows_test G n _ _) (failsNearby_test G n _ _)).bind fun _ => .pure _

/-- A row of digits, each as it is. -/
theorem shadows_digits : Shadows source config (G.run n .digits) (G.run n .digits) :=
  (shadows_optional (shadows_test G n _ _) (failsNearby_test G n _ _)).manyOne InStep.pos_eq
    (Nat.le_refl n)

theorem shadows_digit : Shadows source config (G.run n .digit) (G.run n .digit) :=
  (shadows_test G n _ _).bind fun _ => .pure _

theorem failsNearby_digit : FailsNearby source config (G.run n .digit) := by
  refine failsNearby_of_still fun {r r' e} h => ?_
  exact eq_of_test_refused G n (Action.map_eq_error_iff.1 h)

/-- …or as a number. -/
theorem shadows_digitValues :
    Shadows source config (G.run n (.manyOne .digit)) (G.run n (.manyOne .digit)) :=
  (shadows_optional (shadows_digit G n) (failsNearby_digit G n)).manyOne InStep.pos_eq
    (Nat.le_refl n)

/-- **A row without a digit fails where it is.** -/
theorem eq_of_digits_refused {r r' : Reader} {e : ParseError} (hr : Invariant source config r)
    (h : G.run n .digits r = some (.error (.parse e), r')) : r' = r := by
  obtain ⟨hmany, -⟩ | ⟨hmany, -⟩ := Action.manyOne_eq_some_iff.1 h
  · exact absurd hmany (Action.many_ne_parse _ n)
  · obtain _ | n := n
    · cases hmany
    · obtain ⟨-, e', hattempt⟩ | ⟨fatal, hx, -⟩ | ⟨b, r₁, y, -, -, hx⟩ :=
        Action.many_succ_eq_some_iff.1 hmany
      · obtain ⟨e₀, r₁, htest, hrewind, -⟩ := Action.attempt_eq_parse_iff.1 hattempt
        obtain rfl := eq_of_test_refused G _ htest
        cases (hr.visited.rewind_eq hr.base_le_pos).symm.trans hrewind
        rfl
      · cases hx
      · cases y <;> cases hx

theorem shadows_fraction : Shadows source config (G.run n .fraction) (G.run n .fraction) :=
  (shadows_test G n _ _).bind fun _ => shadows_digits G n

/-- **A fraction fails in front of its point or right behind it.** -/
theorem failsNearby_fraction (hvalid : config.fault? = none) :
    FailsNearby source config (G.run n .fraction) := by
  intro r r' e hr h
  obtain hpoint | ⟨b, r₁, hpoint, hdigits⟩ := Action.bind_eq_error_iff.1 h
  · exact failsNearby_test G n _ _ hr hpoint
  · have hnext := next_of_test G n hpoint
    have hbase := hr.base_le_of_next hvalid hnext
    obtain rfl : r.next.2 = r₁ := congrArg Prod.snd hnext
    obtain rfl := eq_of_digits_refused G n hr.next hdigits
    exact ⟨hr.visited.next, hbase⟩

end Backtrack.Reader
