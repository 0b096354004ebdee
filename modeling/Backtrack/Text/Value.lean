import Backtrack.Number.Decimal
import Backtrack.Text.Literal

/-!
# Text/Value — truth values and numbers

Each of these parsers takes all of its value or nothing: where it fails, the cursor is back at the
start and the failure is about the start.
-/

namespace Backtrack.Parser

variable {N : Type → Type}

/-- **`true` or `false`.** -/
def boolean : Parser N UInt8 Bool :=
  label "expected `true` or `false`"
    (alt (bind (literal "true") fun _ => pure true) [bind (literal "false") fun _ => pure false])

/-- One digit, as a number. -/
def digit : Parser N UInt8 Nat :=
  bind (satisfy Byte.isDigit) fun b => pure (Byte.digitValue b)

/-- Takes a minus sign if there is one, and tells whether there was. -/
def sign : Parser N UInt8 Bool :=
  bind (optional (oneOf [Byte.minus])) fun found => pure found.isSome

/-! ## Integers of 64 bits -/

/-- A number that fits into a signed word of 64 bits, or nothing. -/
def fitted (z : Int) : Option Int :=
  if -9223372036854775808 ≤ z ∧ z ≤ 9223372036854775807 then some z else none

/-- One more digit of a number, away from zero, as long as it fits. -/
def extend (negative : Bool) (z : Int) (d : Nat) : Option Int := do
  let shifted ← fitted (10 * z)
  fitted (if negative then shifted - d else shifted + d)

/-- The number a row of digits stands for, as long as it fits. -/
def integerValue (negative : Bool) (digits : List Nat) : Option Int :=
  digits.foldlM (extend negative) 0

/-- **An integer**: a minus sign or none, then digits.  One that does not fit into a signed word of
64 bits is a failure. -/
def integer : Parser N UInt8 Int :=
  attempt <| bind sign fun negative => bind (manyOne digit) fun digits =>
    match integerValue negative digits with
    | none => error "integer literal out of range"
    | some z => pure z

/-! ## Doubles -/

/-- A row of digits, at least one. -/
def digits : Parser N UInt8 (List UInt8) := manyOne (satisfy Byte.isDigit)

/-- A point and the digits after it. -/
def fraction : Parser N UInt8 (List UInt8) := bind (oneOf [Byte.point]) fun _ => digits

/-- The text of a number, put together from its parts. -/
def numberText (negative : Bool) (whole : List UInt8) (fraction : Option (List UInt8)) : String :=
  Byte.toText <| (if negative then [Byte.minus] else []) ++ whole ++
    (match fraction with
      | none => []
      | some ds => Byte.point :: ds)

/-- **A number**: a minus sign or none, digits, and a fraction or none.  A point without a digit
after it is not part of the number. -/
def number : Parser N UInt8 Binary64 :=
  attempt <| bind sign fun negative => bind digits fun whole => bind (optional fraction) fun rest =>
    let text := numberText negative whole rest
    match Decimal.ofLiteral? text with
    | none => error s!"malformed number `{text}`"
    | some d => pure d.toBinary64

end Backtrack.Parser
