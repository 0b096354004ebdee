/-!
# Failure — the two ways a run can fail

    recoverable   ParseError    no match here          an attempt undoes it
    fatal         StreamError   the input is unusable  passes through unchanged

A `Failure` is either one, so that cursors, combinators and parsers share one kind of result.  The
wording of every failure stands here and in the modules that raise it; `describe` puts the pieces
together.
-/

namespace Backtrack

/-! ## Recoverable failures -/

/-- **A recoverable failure**: what did not match, and the position it refers to, counted in symbols
from the start of the input. -/
structure ParseError where
  message : String
  position : Nat
deriving DecidableEq, Hashable

namespace ParseError

/-- The same complaint about another position. -/
def relocate (e : ParseError) (position : Nat) : ParseError := { e with position }

@[simp] theorem message_relocate (e : ParseError) (p : Nat) : (e.relocate p).message = e.message :=
  rfl

@[simp] theorem position_relocate (e : ParseError) (p : Nat) : (e.relocate p).position = p := rfl

/-- Only the last position given counts. -/
@[simp] theorem relocate_relocate (e : ParseError) (p q : Nat) :
    (e.relocate p).relocate q = e.relocate q := rfl

/-- The failure as one line of text. -/
def describe (e : ParseError) : String := s!"parse error at {e.position}: {e.message}"

end ParseError

/-! ## Fatal failures -/

/-- The kind of an input/output failure, known by its name. -/
structure IoKind where
  name : String
deriving DecidableEq

/-- The one kind with a meaning of its own: a read that was interrupted is tried again at once. -/
def IoKind.interrupted : IoKind := ⟨"Interrupted"⟩

/-- An input/output failure as the operating system or the source reports it. -/
structure IoError where
  kind : IoKind
  message : String
deriving DecidableEq

/-- **A fatal failure**: no parse of this input can be trusted any more. -/
inductive StreamError where
  /-- The file could not be opened. -/
  | cannotOpen (path : String) (cause : IoError)
  /-- The source failed while the byte at `position` was being loaded. -/
  | read (position : Nat) (cause : IoError)
  /-- The settings of a cursor make no sense. -/
  | invalidConfig (reason : String)
  /-- The cursor refused to return to `target`, a position it had already handed out. -/
  | restore (target : Nat) (cause : ParseError)
deriving DecidableEq

namespace StreamError

/-- The failure as one line of text. -/
def describe : StreamError → String
  | cannotOpen path cause => s!"failed to open `{path}`: {cause.message}"
  | read position cause => s!"read failed at position {position}: {cause.message}"
  | invalidConfig reason => s!"invalid stream configuration: {reason}"
  | restore target cause => s!"could not restore stream to position {target}: {cause.describe}"

/-- The texts of the failures this one was caused by, nearest first. -/
def causes : StreamError → List String
  | cannotOpen _ cause => [cause.message]
  | read _ cause => [cause.message]
  | invalidConfig _ => []
  | restore _ cause => [cause.describe]

end StreamError

/-! ## Either kind -/

/-- Either kind of failure. -/
inductive Failure where
  | parse (e : ParseError)
  | stream (e : StreamError)
deriving DecidableEq

namespace Failure

/-- Whether an attempt may undo the failure and go on. -/
def isRecoverable : Failure → Bool
  | parse _ => true
  | stream _ => false

/-- The recoverable failure, or the fatal one handed back. -/
def split : Failure → Except StreamError ParseError
  | parse e => .ok e
  | stream e => .error e

/-- The recoverable failure, if it is one. -/
def parseError? : Failure → Option ParseError
  | parse e => some e
  | stream _ => none

/-- The failure as one line of text. -/
def describe : Failure → String
  | parse e => e.describe
  | stream e => e.describe

/-- The texts of the failures this one was caused by; a recoverable failure has none. -/
def causes : Failure → List String
  | parse _ => []
  | stream e => e.causes

/-- A failure is recoverable exactly when it holds a parse error. -/
theorem isRecoverable_eq_isSome (f : Failure) : f.isRecoverable = f.parseError?.isSome := by
  cases f <;> rfl

end Failure

end Backtrack
