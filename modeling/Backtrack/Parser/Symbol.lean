import Backtrack.Parser.Basic

/-!
# Parser/Symbol — one symbol, or a run of them

The tests of one symbol look before they take, so a failing test consumes nothing.  The scans stop
in front of the first symbol that ends the run, or at the end of the input, which is no failure.
-/

namespace Backtrack.Parser

variable {N : Type → Type} {τ : Type}

/-! ## One symbol -/

/-- Takes the next symbol if it is accepted, and complains otherwise. -/
def test (accepts : τ → Bool) (message : String) : Parser N τ τ :=
  bind peek fun seen => if accepts seen then next else error message

/-- Takes the next symbol if it is in the set. -/
def oneOf [BEq τ] (set : List τ) : Parser N τ τ :=
  test (fun x => set.contains x) "symbol is not one of the permitted set"

/-- Takes the next symbol if it is not in the set. -/
def noneOf [BEq τ] (set : List τ) : Parser N τ τ :=
  test (fun x => !set.contains x) "symbol is in the forbidden set"

/-- Takes the next symbol if it is accepted. -/
def satisfy (accepts : τ → Bool) : Parser N τ τ :=
  test accepts "symbol rejected by predicate"

/-- Takes a symbol that is accepted.  Another symbol, and a look that fails recoverably, are one and
the same failure. -/
def expect (accepts : τ → Bool) (message : String) : Parser N τ Unit :=
  bind (recover (bind peek fun seen => pure (accepts seen)) fun _ => pure false) fun accepted =>
    if accepted then bind next fun _ => pure () else error message

/-- Succeeds only where no symbol is left. -/
def endOfInput : Parser N τ Unit :=
  bind atEnd fun ended => if ended then pure () else error "expected end of input"

/-! ## Runs of symbols -/

/-- Takes symbols while they are accepted. -/
def takeWhile (accepts : τ → Bool) : Parser N τ (List τ) := scan accepts List.cons []

/-- Takes symbols until one is found. -/
def takeUntil (stops : τ → Bool) : Parser N τ (List τ) := takeWhile fun x => !stops x

/-- Drops symbols while they are accepted. -/
def dropWhile (accepts : τ → Bool) : Parser N τ Unit := scan accepts (fun _ u => u) ()

/-- Drops symbols until one is found. -/
def dropUntil (stops : τ → Bool) : Parser N τ Unit := dropWhile fun x => !stops x

end Backtrack.Parser
