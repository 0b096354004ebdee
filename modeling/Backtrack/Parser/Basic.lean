import Backtrack.Failure

/-!
# Parser/Basic — parsers as descriptions

A parser says what to do with a cursor; it does nothing by itself.  Being data, it can be run on any
cursor over its symbols, and "every parser that never steps back" is a set one can reason about by
going through its constructors.

    Parser N τ α      symbols `τ`, a value of type `α`, and named rules from the family `N`

A rule `r : N α` stands for a parser with values of type `α` that a grammar supplies later.  Rules
are how a parser calls itself.
-/

namespace Backtrack

/-- **A parser over symbols `τ`, with named rules `N`.** -/
inductive Parser (N : Type → Type) (τ : Type) : Type → Type 1 where
  /-- Does nothing and returns a value. -/
  | pure {α : Type} (a : α) : Parser N τ α
  /-- Goes on after a value. -/
  | bind {α β : Type} (p : Parser N τ α) (f : α → Parser N τ β) : Parser N τ β
  /-- Does what a named rule says. -/
  | call {α : Type} (r : N α) : Parser N τ α
  /-- Whether no symbol is left. -/
  | atEnd : Parser N τ Bool
  /-- The current position. -/
  | position : Parser N τ Nat
  /-- The next symbol, left where it is. -/
  | peek : Parser N τ τ
  /-- The next symbol, consumed. -/
  | next : Parser N τ τ
  /-- Returns over the last `n` symbols. -/
  | back (n : Nat) : Parser N τ Unit
  /-- Fails recoverably, with a message about the current position. -/
  | error {α : Type} (message : String) : Parser N τ α
  /-- Fails as told. -/
  | raise {α : Type} (f : Failure) : Parser N τ α
  /-- Goes on after a recoverable failure, from where it left the cursor. -/
  | recover {α : Type} (p : Parser N τ α) (handler : ParseError → Parser N τ α) : Parser N τ α
  /-- Replaces the message of a recoverable failure and keeps its position. -/
  | label {α : Type} (message : String) (p : Parser N τ α) : Parser N τ α
  /-- Turns any failure, fatal ones included, into a value. -/
  | observe {α : Type} (p : Parser N τ α) : Parser N τ (Except Failure α)
  /-- Undoes a parser that fails recoverably. -/
  | attempt {α : Type} (p : Parser N τ α) : Parser N τ α
  /-- An attempt whose failure is a value. -/
  | optional {α : Type} (p : Parser N τ α) : Parser N τ (Option α)
  /-- An attempt that is undone even if it works out. -/
  | lookAhead {α : Type} (p : Parser N τ α) : Parser N τ α
  /-- Repeats an attempt until it fails. -/
  | many {α : Type} (p : Parser N τ α) : Parser N τ (List α)
  /-- Repeats an attempt that has to succeed at least once. -/
  | manyOne {α : Type} (p : Parser N τ α) : Parser N τ (List α)
  /-- Ordered choice, walking through the alternatives. -/
  | choice {α : Type} {k : Nat} (ps : Fin k → Parser N τ α) : Parser N τ α
  /-- Ordered choice, each alternative nested around the next; there is at least one. -/
  | nested {α : Type} {k : Nat} (ps : Fin (k + 1) → Parser N τ α) : Parser N τ α
  /-- Takes symbols while they are accepted, and folds them up from the right. -/
  | scan {β : Type} (accepts : τ → Bool) (step : τ → β → β) (init : β) : Parser N τ β

namespace Parser

variable {N : Type → Type} {τ α β : Type}

instance : Monad (Parser N τ) where
  pure := Parser.pure
  bind := Parser.bind

instance [Inhabited α] : Inhabited (Parser N τ α) := ⟨.pure default⟩

/-! ## Parsers made of parsers -/

/-- Returns over the last symbol. -/
def unget : Parser N τ Unit := back 1

/-- Ordered choice from a list, which may be empty. -/
def firstOf (ps : List (Parser N τ α)) : Parser N τ α := choice ps.get

/-- Ordered choice between a first alternative and others after it. -/
def alt (p : Parser N τ α) (ps : List (Parser N τ α)) : Parser N τ α :=
  nested (p :: ps).get

/-- One parser after the other; the first failure ends it. -/
def sequence : List (Parser N τ α) → Parser N τ (List α)
  | [] => pure []
  | p :: ps => bind p fun a => bind (sequence ps) fun as => pure (a :: as)

/-- **Items with separators between them.**  A separator is taken only together with the item after
it, so a trailing one stays where it is. -/
def sepBy (item : Parser N τ α) (separator : Parser N τ β) : Parser N τ (List α) :=
  bind (optional item) fun
    | none => pure []
    | some first =>
      bind (many (bind separator fun _ => item)) fun others => pure (first :: others)

end Parser

end Backtrack
