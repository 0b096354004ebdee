import Backtrack.Action.Choice
import Backtrack.Action.Repeat
import Backtrack.Parser.Basic

/-!
# Parser/Run — running a parser on a cursor

A parser without rules means an action, constructor by constructor (`denote`).  A grammar gives each
rule its parser; unfolding rules to a bounded depth (`unfold`) makes a run an ordinary function:

    run G n p s = none              `n` was not enough
    run G n p s = some (r, s')      result `r`, cursor left at `s'`

The one budget `n` bounds both the depth of rules and the rounds of a repetition.
-/

namespace Backtrack

variable {N : Type → Type} {σ τ α : Type}

/-- **A parser for every rule.** -/
structure Grammar (N : Type → Type) (τ : Type) : Type 1 where
  body : ∀ {α : Type}, N α → Parser N τ α

namespace Parser

/-- **The action a parser describes**, given what its rules do and a budget for repetitions. -/
def denote [Cursor σ τ] (rule : ∀ β : Type, N β → Action σ β) (n : Nat) :
    {α : Type} → Parser N τ α → Action σ α
  | _, pure a => Action.pure a
  | _, bind p f => (denote rule n p).bind fun a => denote rule n (f a)
  | _, call r => rule _ r
  | _, atEnd => Action.ask Cursor.atEnd
  | _, position => Action.ask Cursor.pos
  | _, peek => Action.ofOp Cursor.peek
  | _, next => Action.ofOp Cursor.next
  | _, back k => Action.ofOp (Cursor.back k)
  | _, error message => Action.error message
  | _, raise f => Action.fail f
  | _, recover p handler => (denote rule n p).recover fun e => denote rule n (handler e)
  | _, label message p => (denote rule n p).label message
  | _, observe p => (denote rule n p).observe
  | _, attempt p => (denote rule n p).attempt
  | _, optional p => (denote rule n p).optional
  | _, lookAhead p => (denote rule n p).lookAhead
  | _, many p => (denote rule n p).many n
  | _, manyOne p => (denote rule n p).manyOne n
  | _, choice ps => Action.firstOf (List.ofFn fun i => denote rule n (ps i))
  | _, nested ps => Action.alt (List.ofFn fun i => denote rule n (ps i))
  | _, scan accepts step init => Action.scan accepts step init n

/-- Going through a list by its indices is going through the list. -/
theorem ofFn_get {β : Type} (f : Parser N τ α → β) (ps : List (Parser N τ α)) :
    (List.ofFn fun i => f (ps.get i)) = ps.map f := by
  apply List.ext_getElem <;> simp

/-- A choice from a list means a choice between the meanings. -/
theorem denote_firstOf [Cursor σ τ] (rule : ∀ β : Type, N β → Action σ β) (n : Nat)
    (ps : List (Parser N τ α)) :
    (firstOf ps).denote rule n = Action.firstOf (ps.map fun p => p.denote rule n) :=
  congrArg Action.firstOf (ofFn_get _ ps)

/-- …and so does a choice by nesting. -/
theorem denote_alt [Cursor σ τ] (rule : ∀ β : Type, N β → Action σ β) (n : Nat)
    (p : Parser N τ α) (ps : List (Parser N τ α)) :
    (alt p ps).denote rule n = Action.alt ((p :: ps).map fun q => q.denote rule n) :=
  congrArg Action.alt (ofFn_get _ (p :: ps))

end Parser

namespace Grammar

/-- What a rule does when rules may be nested at most `n` deep. -/
def unfold [Cursor σ τ] (G : Grammar N τ) : Nat → ∀ α : Type, N α → Action σ α
  | 0, _, _ => Action.spent
  | n + 1, _, r => (G.body r).denote (unfold G n) n

/-- **Runs a parser with a budget.** -/
def run [Cursor σ τ] (G : Grammar N τ) (n : Nat) (p : Parser N τ α) : Action σ α :=
  p.denote (G.unfold n) n

end Grammar

end Backtrack
