import Backtrack.Proofs.Action.Simulation
import Backtrack.Proofs.Cursor.Call

/-!
# Proofs/Action/Trace — an action, and what it does on the way

    s ──▸ called peek ↦ 'a' ──▸ called next ↦ 'a' ──▸ called (back 1) ↦ refused ──▸ …   log
    s ─────────────────────────────────────────────────────────────────────────────▸   outcome

An action only says how it ends.  A traced action also keeps a log: every call of the cursor with
its answer, every failure the parser raises itself, every return to a position that was refused.
The log is there even if the budget is spent before the action is done.  Traced actions are put
together the way actions are, and forgetting the log gives the action back (`erase`).

A log is worth something for three reasons (`Sound`), each handed on from the operations to
everything made of them: it recounts how the cursor came to where it is left; a fatal outcome arose
with an event of it; and, as long as no failure is turned into a value, an event with a fatal
failure is the last of all and the failure is the outcome.
-/

namespace Backtrack

variable {σ τ α β : Type}

/-! ## Events -/

/-- **Something that happens in a run.** -/
inductive Event (τ : Type) where
  /-- The cursor was called, and answered. -/
  | called (c : Call) (answer : Except Failure (Answer τ))
  /-- The parser failed by itself. -/
  | raised (f : Failure)
  /-- A return to `target` was refused. -/
  | refused (target : Nat) (cause : ParseError)

namespace Event

/-- **The fatal failure that arises with an event**, if one does. -/
def fatal? : Event τ → Option StreamError
  | called _ (.error (.stream e)) => some e
  | raised (.stream e) => some e
  | refused target cause => some (.restore target cause)
  | _ => none

/-- The call an event is about. -/
def call? : Event τ → Option Call
  | called c _ => some c
  | _ => none

end Event

/-- **How a log leads from one cursor to another**: each call is answered as logged, and nothing but
a call moves the cursor.  A refusal is noted where the refused move has left the cursor. -/
inductive Recounts [Cursor σ τ] : σ → List (Event τ) → σ → Prop where
  | nil (s : σ) : Recounts s [] s
  | called (c : Call) {s s' : σ} {log : List (Event τ)}
      (h : Recounts (Cursor.perform c s).2 log s') :
      Recounts s (.called c (Cursor.perform c s).1 :: log) s'
  | raised (f : Failure) {s s' : σ} {log : List (Event τ)} (h : Recounts s log s') :
      Recounts s (.raised f :: log) s'
  | refused {target : Nat} {cause : ParseError} {s₀ s s' : σ} {log : List (Event τ)}
      (hmove : Cursor.moveTo target s₀ = (.error (.parse cause), s)) (h : Recounts s log s') :
      Recounts s (.refused target cause :: log) s'

theorem Recounts.append [Cursor σ τ] {s s₁ s' : σ} {log log' : List (Event τ)}
    (h : Recounts s log s₁) (h' : Recounts s₁ log' s') : Recounts s (log ++ log') s' := by
  induction h with
  | nil => exact h'
  | called c _ ih => exact .called c (ih h')
  | raised f _ ih => exact .raised f (ih h')
  | refused hmove _ ih => exact .refused hmove (ih h')

/-- The calls of a log lead where the log leads. -/
theorem Recounts.performAll_eq [Cursor σ τ] {s s' : σ} {log : List (Event τ)}
    (h : Recounts s log s') : Cursor.performAll (log.filterMap Event.call?) s = s' := by
  induction h with
  | nil => rfl
  | called c _ ih => exact ih
  | raised f _ ih => exact ih
  | refused hmove _ ih => exact ih

/-! ## Traced actions -/

/-- **What an action did and how it ended**; no outcome means that the budget was spent. -/
structure Trace (σ τ α : Type) where
  log : List (Event τ)
  outcome : Option (Except Failure α × σ)

/-- The calls made, in order. -/
def Trace.calls (t : Trace σ τ α) : List Call := t.log.filterMap Event.call?

/-- **An action that keeps a log.** -/
def Traced (σ τ α : Type) : Type := σ → Trace σ τ α

namespace Traced

/-- **The action without the log.** -/
def erase (t : Traced σ τ α) : Action σ α := fun s => (t s).outcome

/-- An action with nothing to log. -/
def quiet (a : Action σ α) : Traced σ τ α := fun s => ⟨[], a s⟩

/-- An action with one event to log. -/
def noting (ev : Event τ) (a : Action σ α) : Traced σ τ α := fun s => ⟨[ev], a s⟩

/-- Goes on after a value. -/
def bind (t : Traced σ τ α) (f : α → Traced σ τ β) : Traced σ τ β := fun s =>
  match (t s).outcome with
  | none => ⟨(t s).log, none⟩
  | some (.ok a, s') => ⟨(t s).log ++ (f a s').log, (f a s').outcome⟩
  | some (.error e, s') => ⟨(t s).log, some (.error e, s')⟩

/-- Goes on after a recoverable failure. -/
def recover (t : Traced σ τ α) (handler : ParseError → Traced σ τ α) : Traced σ τ α := fun s =>
  match (t s).outcome with
  | some (.error (.parse e), s') => ⟨(t s).log ++ (handler e s').log, (handler e s').outcome⟩
  | _ => t s

/-- Applies a function to the value. -/
def map (f : α → β) (t : Traced σ τ α) : Traced σ τ β := t.bind fun a => quiet (.pure (f a))

/-- Replaces the message of a recoverable failure. -/
def label (message : String) (t : Traced σ τ α) : Traced σ τ α :=
  t.recover fun e => quiet (.fail (.parse { e with message }))

/-- Turns any failure into a value. -/
def observe (t : Traced σ τ α) : Traced σ τ (Except Failure α) := fun s =>
  ⟨(t s).log, t.erase.observe s⟩

/-- Fails as told, and notes it. -/
def raise (f : Failure) : Traced σ τ α := noting (.raised f) (.fail f)

variable [Cursor σ τ]

/-- Makes a call and notes the answer. -/
def call (c : Call) (op : σ → Except Failure α × σ) : Traced σ τ α := fun s =>
  noting (.called c (Cursor.perform c s).1) (.ofOp op) s

/-- Looks at the next symbol. -/
def peek : Traced σ τ τ := call .peek Cursor.peek

/-- Takes the next symbol. -/
def next : Traced σ τ τ := call .next Cursor.next

/-- Steps back. -/
def back (n : Nat) : Traced σ τ Unit := call (.back n) (Cursor.back n)

/-! ### Returning, call by call -/

/-- Takes `k` symbols and drops them. -/
def skip : Nat → Traced σ τ Unit
  | 0 => quiet (.pure ())
  | k + 1 => next.bind fun _ => skip k

/-- Moves to `target`. -/
def moveTo (target : Nat) : Traced σ τ Unit := fun s =>
  if target ≤ Cursor.pos s then back (Cursor.pos s - target) s else skip (target - Cursor.pos s) s

/-- A refusal to return, noted as such. -/
def refuse (target : Nat) (cause : ParseError) : Traced σ τ Unit :=
  noting (.refused target cause) (.fail (.stream (.restore target cause)))

/-- Returns to `target`; a refusal is noted. -/
def rewind (target : Nat) : Traced σ τ Unit := (moveTo target).recover (refuse target)

/-! ### Attempts, repetition, choice -/

/-- Undoes an action that fails recoverably. -/
def attempt (t : Traced σ τ α) : Traced σ τ α :=
  (quiet (.ask Cursor.pos)).bind fun start => t.recover fun e =>
    (rewind start).bind fun _ => quiet (.fail (.parse (e.relocate start)))

/-- An attempt whose failure is a value. -/
def optional (t : Traced σ τ α) : Traced σ τ (Option α) :=
  ((attempt t).map some).recover fun _ => quiet (.pure none)

/-- An attempt that is undone even if it works out. -/
def lookAhead (t : Traced σ τ α) : Traced σ τ α :=
  (quiet (.ask Cursor.pos)).bind fun start =>
    (attempt t).bind fun a => (rewind start).map fun _ => a

/-- Repeats an attempt until it fails. -/
def many : Nat → Traced σ τ α → Traced σ τ (List α)
  | 0, _ => quiet .spent
  | n + 1, t => (optional t).bind fun
    | none => quiet (.pure [])
    | some a => (many n t).map (a :: ·)

/-- Repeats an attempt that has to succeed at least once. -/
def manyOne (n : Nat) (t : Traced σ τ α) : Traced σ τ (List α) :=
  (quiet (.ask Cursor.pos)).bind fun start => (many n t).bind fun
    | [] => quiet (.fail (.parse ⟨"no parses succeeded", start⟩))
    | a :: as => quiet (.pure (a :: as))

/-- Takes symbols while they are accepted. -/
def scan (accepts : τ → Bool) (step : τ → β → β) (init : β) : Nat → Traced σ τ β
  | 0 => quiet .spent
  | n + 1 => (quiet (.ask Cursor.atEnd)).bind fun ended =>
    if ended then quiet (.pure init) else
      peek.bind fun seen =>
        if accepts seen then next.bind fun taken => (scan accepts step init n).map (step taken)
        else quiet (.pure init)

/-- Each alternative around the ones after it. -/
def alternatives (start : Nat) (ts : List (Traced σ τ α)) : Traced σ τ α :=
  ts.foldr (fun t rest => (attempt t).recover fun _ => rest) (quiet (.noneMatched start))

/-- Ordered choice. -/
def choice (ts : List (Traced σ τ α)) : Traced σ τ α :=
  (quiet (.ask Cursor.pos)).bind fun start => alternatives start ts

end Traced

/-! ## Forgetting the log -/

namespace Traced

@[simp] theorem erase_quiet (a : Action σ α) : (quiet a : Traced σ τ α).erase = a := rfl

@[simp] theorem erase_bind (t : Traced σ τ α) (f : α → Traced σ τ β) :
    (t.bind f).erase = t.erase.bind fun a => (f a).erase := by
  funext s
  rcases hout : (t s).outcome with _ | ⟨_ | _, _⟩ <;> simp only [erase, bind, Action.bind, hout]

@[simp] theorem erase_recover (t : Traced σ τ α) (handler : ParseError → Traced σ τ α) :
    (t.recover handler).erase = t.erase.recover fun e => (handler e).erase := by
  funext s
  rcases hout : (t s).outcome with _ | ⟨(_ | _) | _, _⟩ <;>
    simp only [erase, recover, Action.recover, hout]

@[simp] theorem erase_map (f : α → β) (t : Traced σ τ α) : (t.map f).erase = t.erase.map f :=
  erase_bind t _

@[simp] theorem erase_label (message : String) (t : Traced σ τ α) :
    (t.label message).erase = t.erase.label message := erase_recover t _

@[simp] theorem erase_observe (t : Traced σ τ α) : t.observe.erase = t.erase.observe := rfl

variable [Cursor σ τ]

@[simp] theorem erase_peek : (peek : Traced σ τ τ).erase = .ofOp Cursor.peek := rfl

@[simp] theorem erase_next : (next : Traced σ τ τ).erase = .ofOp Cursor.next := rfl

theorem erase_skip : ∀ k : Nat, (skip k : Traced σ τ Unit).erase = .ofOp (Cursor.skip k)
  | 0 => rfl
  | k + 1 => by rw [skip, erase_bind, erase_next, Action.ofOp_skip_succ, erase_skip k]

theorem erase_moveTo (target : Nat) :
    (moveTo target : Traced σ τ Unit).erase = .ofOp (Cursor.moveTo target) := by
  funext s
  by_cases hle : target ≤ Cursor.pos s
  · rw [erase, moveTo, if_pos hle, Action.ofOp, Action.moveTo_of_le hle]
    rfl
  · rw [erase, moveTo, if_neg hle, Action.ofOp, Action.moveTo_of_not_le hle]
    exact congrFun (erase_skip _) s

@[simp] theorem erase_rewind (target : Nat) :
    (rewind target : Traced σ τ Unit).erase = .rewind target := by
  rw [rewind, erase_recover, erase_moveTo, Action.rewind_eq_must]
  rfl

@[simp] theorem erase_attempt (t : Traced σ τ α) : t.attempt.erase = t.erase.attempt := by
  simp only [attempt, Action.attempt_eq, erase_bind, erase_quiet, erase_recover, erase_rewind]

@[simp] theorem erase_optional (t : Traced σ τ α) : t.optional.erase = t.erase.optional := by
  simp only [optional, Action.optional, erase_recover, erase_map, erase_attempt, erase_quiet]

@[simp] theorem erase_lookAhead (t : Traced σ τ α) : t.lookAhead.erase = t.erase.lookAhead := by
  simp only [lookAhead, Action.lookAhead_eq, erase_bind, erase_quiet, erase_attempt, erase_map,
    erase_rewind]

@[simp] theorem erase_many (t : Traced σ τ α) : ∀ n : Nat, (many n t).erase = t.erase.many n
  | 0 => rfl
  | n + 1 => by
    rw [many, Action.many, erase_bind, erase_optional]
    refine congrArg _ (funext fun found => ?_)
    cases found with
    | none => rfl
    | some a => exact (erase_map _ _).trans (congrArg _ (erase_many t n))

@[simp] theorem erase_manyOne (n : Nat) (t : Traced σ τ α) :
    (manyOne n t).erase = t.erase.manyOne n := by
  rw [manyOne, Action.manyOne_eq, erase_bind]
  refine congrArg _ (funext fun start => ?_)
  rw [erase_bind, erase_many]
  refine congrArg _ (funext fun values => ?_)
  cases values <;> rfl

@[simp] theorem erase_scan (accepts : τ → Bool) (step : τ → β → β) (init : β) : ∀ n : Nat,
    (scan accepts step init n : Traced σ τ β).erase = .scan accepts step init n
  | 0 => rfl
  | n + 1 => by
    rw [scan, Action.scan, erase_bind]
    refine congrArg _ (funext fun ended => ?_)
    cases ended with
    | true => rfl
    | false =>
      simp only [Bool.false_eq_true, if_false, erase_bind, erase_peek]
      refine congrArg _ (funext fun seen => ?_)
      cases accepts seen with
      | true => simp only [if_true, erase_bind, erase_next, erase_map, erase_scan _ _ _ n]
      | false => rfl

theorem erase_alternatives (start : Nat) (ts : List (Traced σ τ α)) :
    (alternatives start ts).erase = (ts.map erase).foldr
      (fun p rest => p.attempt.recover fun _ => rest) (.noneMatched start) := by
  induction ts with
  | nil => rfl
  | cons t ts ih =>
    rw [alternatives, List.foldr_cons, erase_recover, erase_attempt]
    exact congrArg _ (funext fun _ => ih)

@[simp] theorem erase_choice (ts : List (Traced σ τ α)) :
    (choice ts).erase = .alt (ts.map erase) := by
  rw [choice, Action.alt_eq, erase_bind]
  exact congrArg _ (funext fun start => erase_alternatives start ts)

end Traced

end Backtrack
