import Backtrack.Parser.Symbol
import Backtrack.Text.Byte

/-!
# Text/Literal — fixed texts, words and the space between them

A literal is matched byte by byte; where it goes wrong, the bytes that did match stay consumed.  A
word is a run of bytes without whitespace and has at least one.
-/

namespace Backtrack.Parser

variable {N : Type → Type}

/-- Takes the given bytes one after the other; any mismatch is the same failure. -/
def expectAll (message : String) : List UInt8 → Parser N UInt8 Unit
  | [] => pure ()
  | b :: bs => bind (expect (· == b) message) fun _ => expectAll message bs

/-- **Matches a text, byte by byte of its UTF-8 form.** -/
def literal (text : String) : Parser N UInt8 String :=
  bind (expectAll s!"could not match `{text}`" (Byte.ofText text)) fun _ => pure text

/-- Takes bytes while they are accepted, one character per byte. -/
def textWhile (accepts : UInt8 → Bool) : Parser N UInt8 String :=
  bind (takeWhile accepts) fun bytes => pure (Byte.toText bytes)

/-- Takes bytes until one is found, one character per byte. -/
def textUntil (stops : UInt8 → Bool) : Parser N UInt8 String :=
  bind (takeUntil stops) fun bytes => pure (Byte.toText bytes)

/-- **A word**: all bytes up to the next whitespace or the end, at least one. -/
def word : Parser N UInt8 String :=
  bind (textUntil Byte.isWhitespace) fun text =>
    if text.isEmpty then error "expected a non-whitespace string" else pure text

/-- Drops all whitespace at the current position. -/
def whitespace : Parser N UInt8 Unit := dropWhile Byte.isWhitespace

end Backtrack.Parser
