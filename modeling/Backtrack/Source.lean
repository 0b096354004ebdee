import Backtrack.Failure

/-!
# Source — a supply of bytes with a mind of its own

A source holds bytes and hands them out when asked, as many as it likes up to the number asked for.
How it answers each call is laid down in advance by a script of replies; after the script it hands
out all it is asked for.  An empty answer means the end of the input, also while bytes are left.

    read    one call, one reply
    fetch   as many calls as it takes to get past the interrupted ones

The source counts its calls and the bytes it has handed out.
-/

namespace Backtrack

/-- The answer to one call. -/
inductive Reply where
  /-- Hands out at most `limit` bytes. -/
  | upTo (limit : Nat)
  /-- Fails and hands out nothing. -/
  | fail (error : IoError)
deriving DecidableEq

/-- Whether the reply asks for another call at once. -/
def Reply.isInterrupted : Reply → Bool
  | upTo _ => false
  | fail e => e.kind = .interrupted

/-- **A scripted supply of bytes.** -/
structure Source where
  /-- The replies to the next calls. -/
  script : List Reply
  /-- The bytes not handed out yet. -/
  rest : List UInt8
  /-- The number of calls made. -/
  reads : Nat
  /-- The number of bytes handed out. -/
  loaded : Nat

namespace Source

/-- A source that has not been asked yet. -/
def ofBytes (bytes : List UInt8) (script : List Reply) : Source := ⟨script, bytes, 0, 0⟩

/-- One call that hands out at most `n` bytes and leaves `script` for the next calls. -/
def handOut (n : Nat) (script : List Reply) (src : Source) : List UInt8 × Source :=
  let bytes := src.rest.take n
  (bytes, ⟨script, src.rest.drop n, src.reads + 1, src.loaded + bytes.length⟩)

/-- What is handed out and what is left make up what was there. -/
theorem handOut_append_rest (n : Nat) (script : List Reply) (src : Source) :
    (src.handOut n script).1 ++ (src.handOut n script).2.rest = src.rest :=
  List.take_append_drop n src.rest

/-- One call for at most `size` bytes. -/
def read (size : Nat) (src : Source) : Except IoError (List UInt8) × Source :=
  match src.script with
  | [] =>
    let (bytes, src') := src.handOut size []
    (.ok bytes, src')
  | .upTo limit :: script =>
    let (bytes, src') := src.handOut (min size limit) script
    (.ok bytes, src')
  | .fail e :: script => (.error e, { src with script, reads := src.reads + 1 })

/-- The calls that are interrupted before the first that is not. -/
def skipInterrupted (src : Source) : Source :=
  { src with
    script := src.script.dropWhile Reply.isInterrupted
    reads := src.reads + (src.script.takeWhile Reply.isInterrupted).length }

/-- **Calls until one is not interrupted.** -/
def fetch (size : Nat) (src : Source) : Except IoError (List UInt8) × Source :=
  src.skipInterrupted.read size

end Source

end Backtrack
