/-!
# Text/Byte — classes of bytes

The letters, digits and blanks of ASCII.  A byte above 127 is in no class.
-/

namespace Backtrack.Byte

/-- Space, tab, newline, carriage return, vertical tab or form feed. -/
def isWhitespace (b : UInt8) : Bool := [32, 9, 10, 13, 11, 12].contains b

/-- `0` to `9`. -/
def isDigit (b : UInt8) : Bool := 48 ≤ b && b ≤ 57

/-- `A` to `Z`. -/
def isUppercase (b : UInt8) : Bool := 65 ≤ b && b ≤ 90

/-- `a` to `z`. -/
def isLowercase (b : UInt8) : Bool := 97 ≤ b && b ≤ 122

/-- A letter of either case. -/
def isAlpha (b : UInt8) : Bool := isUppercase b || isLowercase b

/-- A letter or a digit. -/
def isAlphanum (b : UInt8) : Bool := isAlpha b || isDigit b

/-- The line feed that ends a line. -/
def newline : UInt8 := 10

/-- The sign of a negative number. -/
def minus : UInt8 := 45

/-- The point between a number and its fraction. -/
def point : UInt8 := 46

/-- The number a digit stands for. -/
def digitValue (b : UInt8) : Nat := b.toNat - 48

/-- The character with the code of the byte. -/
def toChar (b : UInt8) : Char := Char.ofNat b.toNat

/-- One character per byte. -/
def toText (bytes : List UInt8) : String := String.ofList (bytes.map toChar)

/-- The bytes of a text in UTF-8. -/
def ofText (text : String) : List UInt8 := text.toList.flatMap String.utf8EncodeChar

end Backtrack.Byte
