import Backtrack.Number.Binary64

/-!
# Number/Decimal — decimal literals

    -?  digit+  ( .  digit+ )?

A literal is read whole, with nothing before or after it, as an exact decimal fraction.  Its double
is the one nearest to that fraction, however many digits there are.
-/

namespace Backtrack

/-- **A decimal fraction**: `digits / 10 ^ places`, with a sign that a zero has too. -/
structure Decimal where
  negative : Bool
  digits : Nat
  places : Nat
deriving DecidableEq

namespace Decimal

/-- The number a row of digits stands for. -/
def ofDigits (cs : List Char) : Nat := cs.foldl (fun n c => 10 * n + (c.toNat - 48)) 0

/-- Whether a row of characters is a row of digits, and not an empty one. -/
def isDigits (cs : List Char) : Bool := !cs.isEmpty && cs.all Char.isDigit

/-- Reads a literal without its sign. -/
def ofUnsigned? (negative : Bool) (cs : List Char) : Option Decimal :=
  let whole := cs.takeWhile Char.isDigit
  match cs.dropWhile Char.isDigit with
  | [] => if isDigits whole then some ⟨negative, ofDigits whole, 0⟩ else none
  | c :: fraction =>
    if c = '.' ∧ isDigits whole ∧ isDigits fraction then
      some ⟨negative, ofDigits (whole ++ fraction), fraction.length⟩
    else none

/-- **Reads a literal.** -/
def ofLiteral? (text : String) : Option Decimal :=
  match text.toList with
  | '-' :: cs => ofUnsigned? true cs
  | cs => ofUnsigned? false cs

/-- The double nearest to a decimal fraction. -/
def toBinary64 (d : Decimal) : Binary64 := .ofFraction d.negative d.digits (Nat.pow 10 d.places)

end Decimal

end Backtrack
