import Mathlib.Data.List.Forall2
import Backtrack.Action.Choice
import Backtrack.Action.Repeat

/-!
# Proofs/Action/Simulation — one action on two cursors

    s ──a──▸ result, s'
    │rel           │rel
    t ──b──▸ result, t'       or  b ends in a fatal failure that counts as lost

Two cursors are related, an action runs on each.  If the first run finishes, so does the second,
with the same result and cursors that are related again; or the second is *lost*: it ends in a fatal
failure of a kind allowed for.  A run is over once it is lost, since nothing goes on after a fatal
failure.  That is why the two ways to go on, `bind` and `recover`, keep the picture, and with them
everything made of them.

The second run may have the larger budget, so the same lemmas say that budgets do not matter.
-/

namespace Backtrack.Action

variable {σ ρ τ α β : Type} {rel : σ → ρ → Prop} {lost : StreamError → Prop}

/-- **The second outcome follows the first.** -/
inductive Follows (rel : σ → ρ → Prop) (lost : StreamError → Prop) :
    Option (Except Failure α × σ) → Option (Except Failure α × ρ) → Prop where
  /-- The first run is not done. -/
  | spent (y : Option (Except Failure α × ρ)) : Follows rel lost none y
  /-- The same result, and related cursors. -/
  | agree (x : Except Failure α) {s : σ} {t : ρ} (h : rel s t) :
      Follows rel lost (some (x, s)) (some (x, t))
  /-- The second run is lost. -/
  | astray {x : Option (Except Failure α × σ)} {e : StreamError} {t : ρ} (h : lost e) :
      Follows rel lost x (some (.error (.stream e), t))

namespace Follows

/-- Two results that are the same, with related cursors. -/
theorem of_eq {x : Except Failure α × σ} {y : Except Failure α × ρ} (h : x.1 = y.1)
    (hrel : rel x.2 y.2) : Follows rel lost (some x) (some y) := by
  obtain ⟨x, s⟩ := x
  obtain ⟨y, t⟩ := y
  cases h
  exact .agree x hrel

end Follows

/-- **An action simulated by another**, from any two related cursors. -/
def Simulated (rel : σ → ρ → Prop) (lost : StreamError → Prop) (a : Action σ α) (b : Action ρ α) :
    Prop :=
  ∀ ⦃s t⦄, rel s t → Follows rel lost (a s) (b t)

/-! ## The two ways to go on -/

namespace Follows

variable {a : Action σ α} {b : Action ρ α} {s : σ} {t : ρ}

theorem bind {f : α → Action σ β} {g : α → Action ρ β} (h : Follows rel lost (a s) (b t))
    (hf : ∀ v, Simulated rel lost (f v) (g v)) : Follows rel lost (a.bind f s) (b.bind g t) := by
  rw [Action.bind, Action.bind]
  generalize a s = x at h
  generalize b t = y at h
  cases h with
  | spent y => exact .spent _
  | agree x hst =>
    cases x with
    | ok v => exact hf v hst
    | error f => exact .agree _ hst
  | astray he => exact .astray he

theorem recover {f : ParseError → Action σ α} {g : ParseError → Action ρ α}
    (h : Follows rel lost (a s) (b t)) (hf : ∀ e, Simulated rel lost (f e) (g e)) :
    Follows rel lost (a.recover f s) (b.recover g t) := by
  rw [Action.recover, Action.recover]
  generalize a s = x at h
  generalize b t = y at h
  cases h with
  | spent y => exact .spent _
  | agree x hst =>
    rcases x with (e | e) | v
    · exact hf e hst
    · exact .agree _ hst
    · exact .agree _ hst
  | astray he => exact .astray he

/-- Only where nothing is lost may failures become values. -/
theorem observe (h : Follows rel lost (a s) (b t)) (hlost : ∀ e, ¬ lost e) :
    Follows rel lost (a.observe s) (b.observe t) := by
  rw [Action.observe, Action.observe]
  generalize a s = x at h
  generalize b t = y at h
  cases h with
  | spent y => exact .spent _
  | agree x hst => exact .agree _ hst
  | astray he => exact absurd he (hlost _)

end Follows

namespace Simulated

variable {a : Action σ α} {b : Action ρ α}

theorem pure (v : α) : Simulated rel lost (pure v) (pure v) := fun _ _ h => .agree _ h

theorem fail (f : Failure) : Simulated rel lost (fail f : Action σ α) (fail f) :=
  fun _ _ h => .agree _ h

theorem spent (b : Action ρ α) : Simulated rel lost spent b := fun _ _ _ => .spent _

/-- A question about the cursor, answered alike. -/
theorem ask {f : σ → α} {g : ρ → α} (h : ∀ {s t}, rel s t → f s = g t) :
    Simulated rel lost (ask f) (ask g) := by
  intro s t hst
  rw [Action.ask, Action.ask, h hst]
  exact .agree _ hst

theorem bind {f : α → Action σ β} {g : α → Action ρ β} (h : Simulated rel lost a b)
    (hf : ∀ v, Simulated rel lost (f v) (g v)) : Simulated rel lost (a.bind f) (b.bind g) :=
  fun _ _ hst => (h hst).bind hf

theorem recover {f : ParseError → Action σ α} {g : ParseError → Action ρ α}
    (h : Simulated rel lost a b) (hf : ∀ e, Simulated rel lost (f e) (g e)) :
    Simulated rel lost (a.recover f) (b.recover g) :=
  fun _ _ hst => (h hst).recover hf

theorem map (f : α → β) (h : Simulated rel lost a b) :
    Simulated rel lost (a.map f) (b.map f) := h.bind fun _ => pure _

theorem label (message : String) (h : Simulated rel lost a b) :
    Simulated rel lost (a.label message) (b.label message) := h.recover fun _ => fail _

theorem observe (hlost : ∀ e, ¬ lost e) (h : Simulated rel lost a b) :
    Simulated rel lost a.observe b.observe :=
  fun _ _ hst => (h hst).observe hlost

/-! ## Where nothing is lost -/

variable {op : σ → Except Failure α × σ} {op' : ρ → Except Failure α × ρ}

/-- An operation simulated by another is answered alike. -/
theorem result_eq (h : Simulated rel lost (ofOp op) (ofOp op')) (hlost : ∀ e, ¬ lost e) {s : σ}
    {t : ρ} (hst : rel s t) : (op s).1 = (op' t).1 ∧ rel (op s).2 (op' t).2 := by
  have hfollows := h hst
  unfold ofOp at hfollows
  generalize op s = x at hfollows
  generalize op' t = y at hfollows
  cases hfollows with
  | agree _ hrel => exact ⟨rfl, hrel⟩
  | astray he => exact absurd he (hlost _)

/-- …and the other way round too. -/
theorem symm_operation (h : Simulated rel lost (ofOp op) (ofOp op')) (hlost : ∀ e, ¬ lost e) :
    Simulated (fun t s => rel s t) lost (ofOp op') (ofOp op) :=
  fun _ _ hst => .of_eq (h.result_eq hlost hst).1.symm (h.result_eq hlost hst).2

end Simulated

/-! ## Actions that remember where they started

Each of them asks for the position first and goes on with the answer in hand. -/

section FromPosition

variable [Cursor σ τ]

theorem error_eq (message : String) : (error message : Action σ α)
    = (ask Cursor.pos).bind fun start => fail (.parse ⟨message, start⟩) := rfl

theorem attempt_eq (p : Action σ α) : attempt p = (ask Cursor.pos).bind fun start =>
    p.recover fun e => (rewind start).bind fun _ => fail (.parse (e.relocate start)) := rfl

theorem lookAhead_eq (p : Action σ α) : lookAhead p = (ask Cursor.pos).bind fun start =>
    (attempt p).bind fun a => (rewind start).map fun _ => a := rfl

theorem manyOne_eq (n : Nat) (p : Action σ α) : manyOne n p = (ask Cursor.pos).bind fun start =>
    (many n p).bind fun
      | [] => fail (.parse ⟨"no parses succeeded", start⟩)
      | a :: as => pure (a :: as) := by
  funext s
  rcases hmany : many n p s with _ | ⟨_ | _ | _, _⟩ <;>
    simp only [manyOne, Action.bind, ask, hmany]

/-- **A move towards `target` that must not fail**: a refusal is fatal. -/
def must (target : Nat) (move : σ → Except Failure Unit × σ) : Action σ Unit :=
  (ofOp move).recover fun e => fail (.stream (.restore target e))

theorem must_of_refusal (target : Nat) {move : σ → Except Failure Unit × σ} {s s' : σ}
    {e : ParseError} (h : move s = (.error (.parse e), s')) :
    must target move s = some (.error (.stream (.restore target e)), s') := by
  simp only [must, Action.recover, ofOp, h]
  rfl

theorem rewind_eq_must (target : Nat) :
    (rewind target : Action σ Unit) = must target (Cursor.moveTo target) := by
  funext s
  simp only [rewind, must, ofOp, Cursor.rewind, Action.recover]
  rcases Cursor.moveTo target s with ⟨(e | e) | v, s'⟩ <;> rfl

theorem moveTo_of_le {target : Nat} {s : σ} (h : target ≤ Cursor.pos s) :
    Cursor.moveTo target s = Cursor.back (Cursor.pos s - target) s := if_pos h

theorem moveTo_of_not_le {target : Nat} {s : σ} (h : ¬ target ≤ Cursor.pos s) :
    Cursor.moveTo target s = Cursor.skip (target - Cursor.pos s) s := if_neg h

theorem ofOp_skip_succ (k : Nat) : ofOp (Cursor.skip (k + 1) : σ → _)
    = (ofOp Cursor.next).bind fun _ => ofOp (Cursor.skip k) := by
  funext s
  simp only [ofOp, Cursor.skip, Action.bind]
  rcases Cursor.next s with ⟨f | x, s'⟩ <;> rfl

theorem firstOf_eq (ps : List (Action σ α)) : firstOf ps =
    (ask Cursor.pos).bind fun start => firstOfFrom start ps := rfl

theorem alt_eq (ps : List (Action σ α)) : alt ps = (ask Cursor.pos).bind fun start =>
    ps.foldr (fun p rest => (attempt p).recover fun _ => rest) (noneMatched start) := rfl

/-- The two forms of ordered choice do the same. -/
theorem firstOf_eq_alt (ps : List (Action σ α)) : firstOf ps = alt ps := by
  rw [firstOf_eq, alt_eq]
  refine congrArg _ (funext fun start => ?_)
  induction ps with
  | nil => rfl
  | cons p ps ih => rw [firstOfFrom, ih, List.foldr_cons]

end FromPosition

/-- **Returning, from stepping back and taking again.**  The step back is asked for only as a move
that must not fail: where the first cursor steps back, the second may be lost. -/
theorem Simulated.rewind [Cursor σ τ] [Cursor ρ τ]
    (hpos : ∀ {s t}, rel s t → Cursor.pos s = Cursor.pos t)
    (hnext : Simulated rel lost (ofOp (Cursor.next : σ → _)) (ofOp Cursor.next))
    (hback : ∀ target n,
      Simulated rel lost (must target (Cursor.back n : σ → _)) (must target (Cursor.back n)))
    (target : Nat) :
    Simulated rel lost (Action.rewind target : Action σ Unit) (Action.rewind target) := by
  have hskip : ∀ k, Simulated rel lost (ofOp (Cursor.skip k : σ → _)) (ofOp (Cursor.skip k)) := by
    intro k
    induction k with
    | zero => exact Simulated.pure ()
    | succ k ih =>
      rw [ofOp_skip_succ, ofOp_skip_succ]
      exact hnext.bind fun _ => ih
  intro s t hst
  rw [rewind_eq_must, rewind_eq_must]
  unfold must Action.recover ofOp
  by_cases hle : target ≤ Cursor.pos s
  · rw [moveTo_of_le hle, moveTo_of_le (hpos hst ▸ hle), ← hpos hst]
    exact hback target _ hst
  · rw [moveTo_of_not_le hle, moveTo_of_not_le (hpos hst ▸ hle), ← hpos hst]
    exact (hskip _).recover (fun e => .fail (.stream (.restore target e))) hst

/-! ## Actions that only look and take

They never turn back, so it is of no concern how the cursors return.  A repetition asks for its
rounds alone: a round that is undone may be simulated for reasons of its own. -/

namespace Simulated

variable [Cursor σ τ] [Cursor ρ τ]

theorem error (hpos : ∀ {s t}, rel s t → Cursor.pos s = Cursor.pos t) (message : String) :
    Simulated rel lost (error message : Action σ α) (error message) := by
  rw [error_eq, error_eq]
  exact .bind (.ask hpos) fun _ => .fail _

theorem scan (hatEnd : ∀ {s t}, rel s t → Cursor.atEnd s = Cursor.atEnd t)
    (hpeek : Simulated rel lost (ofOp (Cursor.peek : σ → _)) (ofOp Cursor.peek))
    (hnext : Simulated rel lost (ofOp (Cursor.next : σ → _)) (ofOp Cursor.next))
    (accepts : τ → Bool) (step : τ → β → β) (init : β) {n m : Nat} (hnm : n ≤ m) :
    Simulated rel lost (scan accepts step init n : Action σ β) (scan accepts step init m) := by
  induction n generalizing m with
  | zero => exact .spent _
  | succ n ih =>
    obtain ⟨m, rfl⟩ : ∃ k, m = k + 1 := ⟨m - 1, by omega⟩
    refine .bind (.ask hatEnd) fun ended => ?_
    cases ended with
    | true => exact .pure init
    | false =>
      refine hpeek.bind fun seen => ?_
      by_cases haccepts : accepts seen = true
      · simp only [haccepts, if_true]
        exact hnext.bind fun taken => (ih (Nat.le_of_succ_le_succ hnm)).map _
      · simp only [haccepts, Bool.false_eq_true, if_false]
        exact .pure init

variable {a : Action σ α} {b : Action ρ α} (h : Simulated rel lost a.optional b.optional)
include h

theorem many {n m : Nat} (hnm : n ≤ m) : Simulated rel lost (a.many n) (b.many m) := by
  induction n generalizing m with
  | zero => exact .spent _
  | succ n ih =>
    obtain ⟨m, rfl⟩ : ∃ k, m = k + 1 := ⟨m - 1, by omega⟩
    refine h.bind fun found => ?_
    cases found with
    | none => exact .pure []
    | some v => exact (ih (Nat.le_of_succ_le_succ hnm)).map _

theorem manyOne (hpos : ∀ {s t}, rel s t → Cursor.pos s = Cursor.pos t) {n m : Nat}
    (hnm : n ≤ m) : Simulated rel lost (a.manyOne n) (b.manyOne m) := by
  rw [manyOne_eq, manyOne_eq]
  refine .bind (.ask hpos) fun start => (h.many hnm).bind fun values => ?_
  cases values with
  | nil => exact .fail _
  | cons v vs => exact .pure _

end Simulated

/-! ## Actions that use a cursor

What a cursor has to do for every action made of its operations to be simulated: answer alike, and
return alike to a position it has been at. -/

/-- **A simulation between two kinds of cursors.** -/
structure Simulation [Cursor σ τ] [Cursor ρ τ] (rel : σ → ρ → Prop) (lost : StreamError → Prop) :
    Prop where
  atEnd_eq : ∀ {s t}, rel s t → Cursor.atEnd s = Cursor.atEnd t
  pos_eq : ∀ {s t}, rel s t → Cursor.pos s = Cursor.pos t
  peek : Simulated rel lost (ofOp (Cursor.peek : σ → _)) (ofOp Cursor.peek)
  next : Simulated rel lost (ofOp (Cursor.next : σ → _)) (ofOp Cursor.next)
  rewind : ∀ target,
    Simulated rel lost (Action.rewind target : Action σ Unit) (Action.rewind target)

namespace Simulation

variable [Cursor σ τ] [Cursor ρ τ] (sim : Simulation (τ := τ) rel lost)
include sim

theorem askAtEnd : Simulated rel lost (ask (Cursor.atEnd : σ → _)) (ask Cursor.atEnd) :=
  .ask sim.atEnd_eq

theorem askPos : Simulated rel lost (ask (Cursor.pos : σ → _)) (ask Cursor.pos) :=
  .ask sim.pos_eq

theorem error (message : String) :
    Simulated rel lost (error message : Action σ α) (error message) := .error sim.pos_eq message

variable {a : Action σ α} {b : Action ρ α}

theorem attempt (h : Simulated rel lost a b) : Simulated rel lost a.attempt b.attempt := by
  rw [attempt_eq, attempt_eq]
  exact sim.askPos.bind fun start => h.recover fun _ => (sim.rewind start).bind fun _ => .fail _

theorem optional (h : Simulated rel lost a b) : Simulated rel lost a.optional b.optional :=
  ((sim.attempt h).map some).recover fun _ => .pure none

theorem lookAhead (h : Simulated rel lost a b) : Simulated rel lost a.lookAhead b.lookAhead := by
  rw [lookAhead_eq, lookAhead_eq]
  exact sim.askPos.bind fun start => (sim.attempt h).bind fun _ => (sim.rewind start).map _

/-! ## Repetition -/

theorem many (h : Simulated rel lost a b) {n m : Nat} (hnm : n ≤ m) :
    Simulated rel lost (a.many n) (b.many m) := (sim.optional h).many hnm

theorem manyOne (h : Simulated rel lost a b) {n m : Nat} (hnm : n ≤ m) :
    Simulated rel lost (a.manyOne n) (b.manyOne m) := (sim.optional h).manyOne sim.pos_eq hnm

theorem scan (accepts : τ → Bool) (step : τ → β → β) (init : β) {n m : Nat} (hnm : n ≤ m) :
    Simulated rel lost (Action.scan accepts step init n : Action σ β)
      (Action.scan accepts step init m) :=
  .scan sim.atEnd_eq sim.peek sim.next accepts step init hnm

/-! ## Choice -/

omit sim in
/-- Alternatives by index are alternatives in a list. -/
theorem forall₂_ofFn : ∀ {k : Nat} {as : Fin k → Action σ α} {bs : Fin k → Action ρ α},
    (∀ i, Simulated rel lost (as i) (bs i)) →
      List.Forall₂ (Simulated rel lost) (List.ofFn as) (List.ofFn bs)
  | 0, _, _, _ => .nil
  | _ + 1, _, _, h => by
    rw [List.ofFn_succ, List.ofFn_succ]
    exact .cons (h 0) (forall₂_ofFn fun i => h i.succ)

variable {as : List (Action σ α)} {bs : List (Action ρ α)}

theorem firstOf (h : List.Forall₂ (Simulated rel lost) as bs) :
    Simulated rel lost (Action.firstOf as) (Action.firstOf bs) := by
  rw [firstOf_eq, firstOf_eq]
  refine sim.askPos.bind fun start => ?_
  induction h with
  | nil => exact .fail _
  | cons hab _ ih => exact (sim.attempt hab).recover fun _ => ih

theorem alt (h : List.Forall₂ (Simulated rel lost) as bs) :
    Simulated rel lost (Action.alt as) (Action.alt bs) := by
  rw [alt_eq, alt_eq]
  refine sim.askPos.bind fun start => ?_
  induction h with
  | nil => exact .fail _
  | cons hab _ ih => exact (sim.attempt hab).recover fun _ => ih

end Simulation

end Backtrack.Action
