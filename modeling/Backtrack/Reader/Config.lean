import Backtrack.Failure

/-!
# Reader/Config — how much a reader loads and how much it keeps

A configuration is built step by step and checked only when a reader is made from it.  Of several
faults the first in the order of `ConfigFault` is reported.
-/

namespace Backtrack

/-- **How a reader loads and keeps bytes.** -/
structure ReaderConfig where
  /-- Bytes asked for per refill. -/
  chunkSize : Nat
  /-- How many consumed bytes are sure to be kept for stepping back; `none` keeps them all. -/
  maxRetained : Option Nat
deriving DecidableEq

/-- What can be wrong with a configuration. -/
inductive ConfigFault where
  /-- A refill that asks for nothing. -/
  | emptyChunk
  /-- A refill that asks for more than `ReaderConfig.maxChunkSize`. -/
  | oversizedChunk
  /-- A window that keeps nothing, so that not even one step back is sure. -/
  | emptyWindow
deriving DecidableEq

/-- The fault in words. -/
def ConfigFault.reason : ConfigFault → String
  | emptyChunk => "chunk size must be non-zero"
  | oversizedChunk => "chunk size exceeds MAX_CHUNK_SIZE"
  | emptyWindow => "retained window must allow at least one byte"

namespace ReaderConfig

/-- The chunk size nobody has to choose. -/
def defaultChunkSize : Nat := 4096

/-- The largest chunk size accepted, one gibibyte. -/
def maxChunkSize : Nat := 1073741824

/-- The configuration nobody has to choose: the default chunk size, and everything kept. -/
def standard : ReaderConfig := ⟨defaultChunkSize, none⟩

/-- The same with another chunk size. -/
def withChunkSize (chunkSize : Nat) (c : ReaderConfig) : ReaderConfig := { c with chunkSize }

/-- The same with at least the last `limit` consumed bytes kept. -/
def withMaxRetained (limit : Nat) (c : ReaderConfig) : ReaderConfig :=
  { c with maxRetained := some limit }

/-- The same with everything kept. -/
def unbounded (c : ReaderConfig) : ReaderConfig := { c with maxRetained := none }

/-- The first fault of a configuration. -/
def fault? (c : ReaderConfig) : Option ConfigFault :=
  if c.chunkSize = 0 then some .emptyChunk
  else if maxChunkSize < c.chunkSize then some .oversizedChunk
  else if c.maxRetained = some 0 then some .emptyWindow
  else none

/-- A configuration is free of faults exactly when its chunk size is in range and it keeps
something. -/
theorem fault?_eq_none_iff (c : ReaderConfig) :
    c.fault? = none ↔
      0 < c.chunkSize ∧ c.chunkSize ≤ maxChunkSize ∧ c.maxRetained ≠ some 0 := by
  unfold fault?
  split
  · simp_all
  split
  · simp; omega
  split
  · simp_all
  · simp_all; omega

end ReaderConfig

end Backtrack
