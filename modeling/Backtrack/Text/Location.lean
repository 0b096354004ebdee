import Backtrack.Text.Byte

/-!
# Text/Location — lines and columns

Lines and columns are counted from one, columns in bytes.  A newline belongs to the line it ends.  A
position past the end is taken for the end.
-/

namespace Backtrack

/-- **A line and a column.** -/
structure Location where
  line : Nat
  column : Nat
deriving DecidableEq

namespace Location

/-- Where a position stands in the given bytes. -/
def ofPosition (input : List UInt8) (position : Nat) : Location :=
  let seen := input.take position
  { line := seen.count Byte.newline + 1
    column := (seen.reverse.takeWhile (· != Byte.newline)).length + 1 }

/-- The location as text, line before column. -/
def describe (l : Location) : String := s!"{l.line}:{l.column}"

/-- By line first, then by column. -/
instance : Ord Location where
  compare a b := (compare a.line b.line).then (compare a.column b.column)

instance : LT Location := ltOfOrd

end Location

end Backtrack
