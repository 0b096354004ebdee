import Backtrack.Source

/-!
# Proofs/Source/History — a source, call by call

    src ──call 0──▸ after 1 ──call 1──▸ after 2 ──call 2──▸ …

Every call a reader makes asks for the same number of bytes.  So the calls can be numbered, and what
call `k` is answered is settled by the source and by `k`.  A `fetch` is a stretch of them, each
interrupted but the last (`Asks`): one call, and one more for every interruption.
-/

namespace Backtrack.Source

variable {size : Nat} {src src' : Source} {x : Except IoError (List UInt8)}

/-! ## Calls by number -/

/-- The source after `k` calls for `size` bytes each. -/
def after (size : Nat) : Nat → Source → Source
  | 0, src => src
  | k + 1, src => after size k (src.read size).2

/-- **The answer to call `k`**, counted from zero. -/
def answer (size k : Nat) (src : Source) : Except IoError (List UInt8) :=
  ((src.after size k).read size).1

theorem after_add (size j k : Nat) (src : Source) :
    src.after size (j + k) = (src.after size j).after size k := by
  induction j generalizing src with
  | zero => rw [Nat.zero_add, after]
  | succ j ih => rw [Nat.succ_add, after, after, ih]

theorem answer_after (size j k : Nat) (src : Source) :
    (src.after size j).answer size k = src.answer size (j + k) := by
  rw [answer, answer, after_add]

/-- Every call counts, whatever it is answered. -/
theorem reads_read (size : Nat) (src : Source) : (src.read size).2.reads = src.reads + 1 := by
  unfold read
  split <;> rfl

theorem reads_after (size k : Nat) (src : Source) : (src.after size k).reads = src.reads + k := by
  induction k generalizing src with
  | zero => rfl
  | succ k ih =>
    rw [after, ih, reads_read]
    omega

/-! ## Calls until one is not interrupted -/

/-- The answer of a call that was interrupted. -/
def Interrupted (x : Except IoError (List UInt8)) : Prop :=
  ∃ e, x = .error e ∧ e.kind = .interrupted

/-- **One call, and one more for every interruption** before it. -/
structure Asks (size interruptions : Nat) (src src' : Source) : Prop where
  source_eq : src' = src.after size (interruptions + 1)
  reads_eq : src'.reads = src.reads + (interruptions + 1)
  interrupted : ∀ i < interruptions, Interrupted (src.answer size i)
  not_interrupted : ¬ Interrupted (src.answer size interruptions)

/-- The first call settles it, or is interrupted and leaves a shorter script. -/
theorem fetch_cases (size : Nat) (src : Source) :
    (¬ Interrupted (src.read size).1 ∧ src.fetch size = src.read size) ∨
      (Interrupted (src.read size).1 ∧ (src.read size).2.script.length < src.script.length ∧
        src.fetch size = (src.read size).2.fetch size) := by
  obtain ⟨script, rest, reads, loaded⟩ := src
  rcases script with - | ⟨limit | e, script⟩
  · exact .inl ⟨nofun, rfl⟩
  · exact .inl ⟨nofun, rfl⟩
  · by_cases hkind : e.kind = .interrupted
    · refine .inr ⟨⟨e, rfl, hkind⟩, Nat.lt_succ_self _, ?_⟩
      have hint : (Reply.fail e).isInterrupted = true := by simp [Reply.isInterrupted, hkind]
      simp only [fetch, skipInterrupted, read, List.dropWhile_cons_of_pos hint,
        List.takeWhile_cons_of_pos hint, List.length_cons, Nat.add_assoc, Nat.add_comm 1]
    · have hint : ¬ (Reply.fail e).isInterrupted = true := by simp [Reply.isInterrupted, hkind]
      refine .inl ⟨?_, ?_⟩
      · rintro ⟨e', he, hkind'⟩
        cases he
        exact hkind hkind'
      · simp only [fetch, skipInterrupted, List.dropWhile_cons_of_neg hint,
          List.takeWhile_cons_of_neg hint, List.length_nil, Nat.add_zero]

/-- **A fetch asks until it is not interrupted**, and its answer is the last. -/
theorem asks_of_fetch (h : src.fetch size = (x, src')) :
    ∃ j, src.answer size j = x ∧ Asks size j src src' := by
  induction hlength : src.script.length using Nat.strongRecOn generalizing src with
  | ind length ih =>
    rcases fetch_cases size src with ⟨hnot, heq⟩ | ⟨hint, hlt, heq⟩
    · have hread : src.read size = (x, src') := heq.symm.trans h
      have hreads := reads_read size src
      rw [hread] at hreads
      have hsource : src' = src.after size 1 := (congrArg Prod.snd hread).symm
      exact ⟨0, congrArg Prod.fst hread, hsource, hreads, nofun, hnot⟩
    · obtain ⟨j, hx, hasks⟩ := ih _ (hlength ▸ hlt) (heq.symm.trans h) rfl
      refine ⟨j + 1, hx, hasks.source_eq, ?_, fun i hi => ?_, hasks.not_interrupted⟩
      · rw [hasks.reads_eq, reads_read]
        omega
      · cases i with
        | zero => exact hint
        | succ i => exact hasks.interrupted i (Nat.lt_of_succ_lt_succ hi)

end Backtrack.Source
