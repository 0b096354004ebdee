import Backtrack.Proofs.Action.Simulation
import Backtrack.Proofs.Cursor.Call
import Backtrack.Proofs.Parser.Class

/-!
# Proofs/Parser/Simulation — one parser on two cursors

A parser means an action made of a cursor's operations, and a rule means a parser one budget
further down.  So a simulation between two kinds of cursors carries over from the operations to the
parsers (`denote`), the rules (`unfold`) and whole runs (`run`).  A parser that steps back by itself
asks for one operation more; one that turns failures into values asks that nothing be lost.

A cursor simulates itself, and the second run may have the larger budget: **a finished run does not
depend on its budget**.  What a run yields is therefore a relation of its own, `Yields`.
-/

namespace Backtrack

open Backtrack.Action (Simulated)

variable {N : Type → Type} {σ ρ τ α : Type} [Cursor σ τ] [Cursor ρ τ]
  {allowed : Feature → Prop} {rel : σ → ρ → Prop} {lost : StreamError → Prop}

/-- **A simulation that is good for a class of parsers.** -/
structure ParserSimulation (allowed : Feature → Prop) (rel : σ → ρ → Prop)
    (lost : StreamError → Prop) : Prop extends Action.Simulation (τ := τ) rel lost where
  back : allowed .back → ∀ n,
    Simulated rel lost (Action.ofOp (Cursor.back n : σ → _)) (Action.ofOp (Cursor.back n))
  observe : allowed .observe → ∀ e, ¬ lost e

namespace ParserSimulation

variable (sim : ParserSimulation (τ := τ) allowed rel lost)
include sim

/-- **Every parser of the class is simulated**, if its rules are. -/
theorem denote {rule : ∀ β : Type, N β → Action σ β} {rule' : ∀ β : Type, N β → Action ρ β}
    (hrule : ∀ β (r : N β), Simulated rel lost (rule β r) (rule' β r)) {n m : Nat} (hnm : n ≤ m)
    {p : Parser N τ α} (hp : p.Within allowed) :
    Simulated rel lost (p.denote rule n) (p.denote rule' m) := by
  induction p with
  | pure a => exact .pure a
  | bind p f ihp ihf => exact (ihp hp.1).bind fun a => ihf a (hp.2 a)
  | call r => exact hrule _ r
  | atEnd => exact sim.askAtEnd
  | position => exact sim.askPos
  | peek => exact sim.peek
  | next => exact sim.next
  | back k => exact sim.back hp k
  | error message => exact sim.error message
  | raise f => exact .fail f
  | recover p handler ihp ihhandler =>
    exact (ihp hp.1).recover fun e => ihhandler e (hp.2.1 e)
  | label message p ih => exact (ih hp).label message
  | observe p ih => exact (ih hp.2).observe (sim.observe hp.1)
  | attempt p ih => exact sim.attempt (ih hp)
  | optional p ih => exact sim.optional (ih hp)
  | lookAhead p ih => exact sim.lookAhead (ih hp)
  | many p ih => exact sim.many (ih hp) hnm
  | manyOne p ih => exact sim.manyOne (ih hp) hnm
  | choice ps ih => exact sim.firstOf (Action.Simulation.forall₂_ofFn fun i => ih i (hp i))
  | nested ps ih => exact sim.alt (Action.Simulation.forall₂_ofFn fun i => ih i (hp i))
  | scan accepts step init => exact sim.scan accepts step init hnm

/-- **So is every rule of a grammar of the class**, to any depth. -/
theorem unfold {G : Grammar N τ} (hG : G.Within allowed) {n m : Nat} (hnm : n ≤ m) :
    ∀ β (r : N β), Simulated rel lost (G.unfold n β r) (G.unfold m β r) := by
  induction n generalizing m with
  | zero => exact fun _ _ => .spent _
  | succ n ih =>
    obtain ⟨m, rfl⟩ : ∃ k, m = k + 1 := ⟨m - 1, by omega⟩
    have hle : n ≤ m := Nat.le_of_succ_le_succ hnm
    exact fun _ r => sim.denote (ih hle) hle (hG r)

/-- **…and every run.** -/
theorem run {G : Grammar N τ} (hG : G.Within allowed) {n m : Nat} (hnm : n ≤ m)
    {p : Parser N τ α} (hp : p.Within allowed) :
    Simulated rel lost (G.run n p) (G.run m p) := sim.denote (sim.unfold hG hnm) hnm hp

end ParserSimulation

/-! ## Budgets do not matter -/

/-- An action simulates itself. -/
theorem Action.Simulated.refl (a : Action σ α) : Simulated Eq lost a a := by
  rintro s _ rfl
  rcases a s with - | ⟨x, s'⟩
  · exact .spent _
  · exact .agree x rfl

/-- On one cursor, what follows a finished outcome is that outcome. -/
theorem Action.Follows.eq_some {x y : Option (Except Failure α × σ)}
    (h : Follows Eq (fun _ => False) x y) {out : Except Failure α × σ} (hx : x = some out) :
    y = some out := by
  subst hx
  cases h with
  | agree x heq => rw [heq]
  | astray hlost => cases hlost

/-- A cursor simulates itself, for all parsers. -/
theorem ParserSimulation.refl :
    ParserSimulation (σ := σ) (τ := τ) (fun _ => True) Eq fun _ => False where
  atEnd_eq := congrArg Cursor.atEnd
  pos_eq := congrArg Cursor.pos
  peek := .refl _
  next := .refl _
  rewind _ := .refl _
  back _ _ := .refl _
  observe _ _ := id

namespace Grammar

variable {G : Grammar N τ} {p : Parser N τ α} {s : σ}

/-- **A larger budget keeps a finished answer.** -/
theorem run_mono {n m : Nat} (hnm : n ≤ m) {out : Except Failure α × σ}
    (h : G.run n p s = some out) : G.run m p s = some out := by
  have hG : G.Within fun _ => True := G.within_of_all fun _ => trivial
  have hp : p.Within fun _ => True := p.within_of_all fun _ => trivial
  exact (ParserSimulation.refl.run hG hnm hp (Eq.refl s)).eq_some h

/-- **A run yields a result and leaves a cursor**, with budget enough. -/
def Yields (G : Grammar N τ) (p : Parser N τ α) (s : σ) (x : Except Failure α) (s' : σ) : Prop :=
  ∃ n, G.run n p s = some (x, s')

/-- …and no other result and cursor. -/
theorem Yields.unique {x x' : Except Failure α} {s₁ s₂ : σ} (h : G.Yields p s x s₁)
    (h' : G.Yields p s x' s₂) : x = x' ∧ s₁ = s₂ := by
  obtain ⟨n, hn⟩ := h
  obtain ⟨m, hm⟩ := h'
  have := (run_mono (Nat.le_max_left n m) hn).symm.trans (run_mono (Nat.le_max_right n m) hm)
  exact Prod.mk.inj (Option.some.inj this)

end Grammar

/-! ## What is yielded on both -/

/-- **A run that yields something is followed by one that yields the same**, or is lost. -/
theorem ParserSimulation.yields (sim : ParserSimulation (τ := τ) allowed rel lost)
    {G : Grammar N τ} (hG : G.Within allowed) {p : Parser N τ α} (hp : p.Within allowed) {s : σ}
    {t : ρ} (hst : rel s t) {x : Except Failure α} {s' : σ} (h : G.Yields p s x s') :
    (∃ t', rel s' t' ∧ G.Yields p t x t') ∨
      ∃ e t', lost e ∧ G.Yields p t (.error (.stream e)) t' := by
  obtain ⟨n, hn⟩ := h
  have hfollows := sim.run hG (Nat.le_refl n) hp hst
  rw [hn] at hfollows
  generalize hy : G.run n p t = y at hfollows
  cases hfollows with
  | agree x hst' => exact .inl ⟨_, hst', n, hy⟩
  | astray hlost => exact .inr ⟨_, _, hlost, n, hy⟩

/-- Where nothing is lost, whatever is yielded is yielded on both. -/
theorem ParserSimulation.exists_yields
    (sim : ParserSimulation (τ := τ) (fun _ => True) rel fun _ => False) {G : Grammar N τ}
    {p : Parser N τ α} {s : σ} {t : ρ} (hst : rel s t) {x : Except Failure α} {s' : σ}
    (h : G.Yields p s x s') : ∃ t', rel s' t' ∧ G.Yields p t x t' := by
  have hG : G.Within fun _ => True := G.within_of_all fun _ => trivial
  have hp : p.Within fun _ => True := p.within_of_all fun _ => trivial
  obtain h | ⟨_, _, hlost, -⟩ := sim.yields hG hp hst h
  · exact h
  · exact hlost.elim

/-! ## Where nothing is lost

Then a simulation works in both directions, and the two runs cannot be told apart. -/

/-- **What can be seen of an outcome**: the result, and the view of the cursor left. -/
def shown (out : Option (Except Failure α × σ)) : Option (Except Failure α × Cursor.View τ) :=
  out.map fun o => (o.1, Cursor.view o.2)

namespace ParserSimulation

theorem symm (sim : ParserSimulation (τ := τ) allowed rel lost) (hlost : ∀ e, ¬ lost e) :
    ParserSimulation (τ := τ) allowed (fun t s => rel s t) lost where
  atEnd_eq h := (sim.atEnd_eq h).symm
  pos_eq h := (sim.pos_eq h).symm
  peek := sim.peek.symm_operation hlost
  next := sim.next.symm_operation hlost
  rewind target := (sim.rewind target).symm_operation hlost
  back hallowed n := (sim.back hallowed n).symm_operation hlost
  observe _ := hlost

theorem view_eq (sim : ParserSimulation (τ := τ) allowed rel lost) (hlost : ∀ e, ¬ lost e) {s : σ}
    {t : ρ} (h : rel s t) : Cursor.view s = Cursor.view t := by
  rw [Cursor.view, Cursor.view, sim.pos_eq h, sim.atEnd_eq h, (sim.peek.result_eq hlost h).1]

/-- **Two runs that cannot be told apart**: with any budget, both spent or both with the same result
and the same view. -/
theorem shown_run_eq (sim : ParserSimulation (τ := τ) allowed rel lost) (hlost : ∀ e, ¬ lost e)
    {G : Grammar N τ} (hG : G.Within allowed) {p : Parser N τ α} (hp : p.Within allowed) (n : Nat)
    {s : σ} {t : ρ} (hst : rel s t) : shown (G.run n p s) = shown (G.run n p t) := by
  have hforth := sim.run hG (Nat.le_refl n) hp hst
  have hback := (sim.symm hlost).run hG (Nat.le_refl n) hp hst
  generalize G.run n p s = x at hforth hback
  generalize G.run n p t = y at hforth hback
  cases hforth with
  | spent y =>
    -- the second run is not done either, or the first would follow it
    cases hback with
    | spent => rfl
  | agree x hst' => exact congrArg (fun v => some (x, v)) (sim.view_eq hlost hst')
  | astray he => exact absurd he (hlost _)

end ParserSimulation

end Backtrack
