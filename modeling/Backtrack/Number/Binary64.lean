/-!
# Number/Binary64 — the double nearest to a fraction

A double is its 64-bit pattern: a sign bit, eleven bits of exponent, 52 bits of fraction.  Without
the sign the patterns are ordered as the numbers they stand for, and successive patterns are
successive numbers, so that rounding up across a power of two is no special case:

    pattern = k · 2^52 + q       number = q · 2^k · 2^-1074       2^52 ≤ q < 2^53, or k = 0

All arithmetic is on natural numbers.  The fraction is measured in units of the least positive
double, `2^-1074`.
-/

namespace Backtrack

/-- **A double, as its bit pattern.** -/
structure Binary64 where
  bits : UInt64
deriving DecidableEq

namespace Binary64

/-- The weight of one step of the exponent in a pattern. -/
def binade : Nat := Nat.pow 2 52

/-- The pattern of infinity without its sign. -/
def infinity : Nat := 0x7ff * binade

/-- The sign bit. -/
def signBit : Nat := Nat.pow 2 63

/-- How many of the least positive doubles make one. -/
def unitsPerOne : Nat := Nat.pow 2 1074

/-- The quotient rounded to the nearest natural number, a tie to the even one. -/
def roundQuotient (num den : Nat) : Nat :=
  let q := num / den
  let r := num % den
  if 2 * r < den then q
  else if den < 2 * r then q + 1
  else q + q % 2

/-- The number of bits of a fraction, measured in units, that do not fit into a pattern. -/
def excessBits (num den : Nat) : Nat := (num / den).log2 - 52

/-- **The pattern of the double nearest to `num / den`**, without its sign. -/
def magnitude (num den : Nat) : Nat :=
  let units := num * unitsPerOne
  let k := excessBits units den
  min infinity (k * binade + roundQuotient units (den * Nat.pow 2 k))

/-- The double nearest to plus or minus `num / den`; zero has a sign too. -/
def ofFraction (negative : Bool) (num den : Nat) : Binary64 :=
  ⟨((if negative then signBit else 0) + magnitude num den).toUInt64⟩

end Binary64

end Backtrack
