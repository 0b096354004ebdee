import Backtrack.Cursor.Rewind

/-!
# Action/Basic — what a parser does to a cursor

An action takes a cursor and returns a value or a failure together with the cursor it leaves, or
nothing at all when its budget is spent before it is done:

    none                    the budget is spent
    some (.ok a, s)         value `a`, cursor at `s`
    some (.error f, s)      failure `f`, cursor at `s`

Two ways to put actions together suffice.  `bind` goes on after a value.  `recover` goes on after a
recoverable failure, *from where the failure left the cursor*; no combination goes on after a fatal
one.
-/

namespace Backtrack

/-- **A step of work on a cursor.** -/
def Action (σ α : Type) : Type := σ → Option (Except Failure α × σ)

namespace Action

variable {σ τ α β γ : Type}

/-- Does nothing and returns a value. -/
def pure (a : α) : Action σ α := fun s => some (.ok a, s)

/-- Fails and leaves the cursor where it is. -/
def fail (f : Failure) : Action σ α := fun s => some (.error f, s)

/-- The budget is spent. -/
def spent : Action σ α := fun _ => none

/-- One operation of the cursor. -/
def ofOp (op : σ → Except Failure α × σ) : Action σ α := fun s => some (op s)

/-- A question to the cursor. -/
def ask (q : σ → α) : Action σ α := fun s => some (.ok (q s), s)

/-- **Goes on after a value.** -/
def bind (p : Action σ α) (f : α → Action σ β) : Action σ β := fun s =>
  match p s with
  | none => none
  | some (.ok a, s') => f a s'
  | some (.error e, s') => some (.error e, s')

/-- **Goes on after a recoverable failure**, from where it left the cursor. -/
def recover (p : Action σ α) (handler : ParseError → Action σ α) : Action σ α := fun s =>
  match p s with
  | none => none
  | some (.ok a, s') => some (.ok a, s')
  | some (.error (.parse e), s') => handler e s'
  | some (.error (.stream e), s') => some (.error (.stream e), s')

/-! ### Laws -/

@[simp] theorem pure_bind (a : α) (f : α → Action σ β) : (pure a).bind f = f a := rfl

@[simp] theorem bind_pure (p : Action σ α) : p.bind pure = p := by
  funext s
  unfold bind
  split <;> simp_all [pure]

/-- How a chain of actions is bracketed does not matter. -/
theorem bind_assoc (p : Action σ α) (f : α → Action σ β) (g : β → Action σ γ) :
    (p.bind f).bind g = p.bind fun a => (f a).bind g := by
  funext s
  unfold bind
  cases p s with
  | none => rfl
  | some out =>
    obtain ⟨_ | a, s'⟩ := out <;> rfl

@[simp] theorem recover_pure (a : α) (h : ParseError → Action σ α) :
    (pure a).recover h = pure a := rfl

@[simp] theorem recover_fail_parse (e : ParseError) (h : ParseError → Action σ α) :
    (fail (.parse e)).recover h = h e := rfl

/-- A fatal failure is not recovered from. -/
@[simp] theorem recover_fail_stream (e : StreamError) (h : ParseError → Action σ α) :
    (fail (.stream e)).recover h = fail (.stream e) := rfl

/-! ### Derived actions -/

/-- Applies a function to the value. -/
def map (f : α → β) (p : Action σ α) : Action σ β := p.bind fun a => pure (f a)

/-- Turns any failure, fatal ones included, into a value. -/
def observe (p : Action σ α) : Action σ (Except Failure α) := fun s =>
  match p s with
  | none => none
  | some (r, s') => some (.ok r, s')

/-- Replaces the message of a recoverable failure and keeps its position. -/
def label (message : String) (p : Action σ α) : Action σ α :=
  p.recover fun e => fail (.parse { e with message })

/-- Fails with a message about the current position. -/
def error [Cursor σ τ] (message : String) : Action σ α := fun s =>
  fail (.parse ⟨message, Cursor.pos s⟩) s

end Action

end Backtrack
