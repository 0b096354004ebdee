import Backtrack.Proofs.Reader.Mirror

/-!
# Proofs/Reader/Lockstep — a reader and an array cursor, call by call

The array cursor holds all that the source will ever deliver, and is kept in step with the reader:
it makes the same call, and keeps the move if the two answers are the same.  Each call is one of
three things and no two of them at once:

    Agrees    the same answer, and the same view afterwards
    Stalls    the source fails; nothing moves, and the byte is there for the next try
    Refuses   a step back into what was forgotten; nothing moves

What is never seen is a fourth: a byte skipped, taken twice or out of order.
-/

namespace Backtrack.Reader

variable {source : Source} {config : ReaderConfig} {r : Reader} {m : ArrayCursor UInt8}
  {c : Call}

/-! ## The three things a call can be -/

/-- The reader after `k` more tries to take a byte. -/
def retried : Nat → Reader → Reader
  | 0, r => r
  | k + 1, r => retried k (Cursor.next r).2

/-- **The same answer**, and both cursors look the same afterwards. -/
structure Agrees (c : Call) (r : Reader) (m : ArrayCursor UInt8) : Prop where
  answer_eq : (Cursor.perform c r).1 = (Cursor.perform c m).1
  view_eq : Cursor.view (Cursor.perform c r).2 = Cursor.view (Cursor.perform c m).2

/-- **A byte that cannot be taken for now**: the source fails, nothing moves, and of the tries after
it the first that does not fail in the same way takes the byte the array cursor takes. -/
structure Stalls (c : Call) (r : Reader) (m : ArrayCursor UInt8) : Prop where
  call_eq : c = .next
  fails : ∃ p e, (Cursor.perform c r).1 = .error (.stream (.read p e))
  unmoved : r.Unmoved (Cursor.perform c r).2
  retry : ∃ b, (Cursor.next m).1 = .ok b ∧
    ∀ k, (∀ j < k, (retried j (Cursor.perform c r).2).FailsToRead) →
      (retried k (Cursor.perform c r).2).FailsToRead ∨
        (Cursor.next (retried k (Cursor.perform c r).2)).1 = .ok b

/-- **A step back that is refused**: it would lead to a position that was there and is forgotten. -/
structure Refuses (c : Call) (r : Reader) : Prop where
  step : ∃ n, c = .back n ∧ n ≤ Cursor.pos r ∧ Cursor.pos r - n < r.windowStart
  fails : ∃ message, (Cursor.perform c r).1 = .error (.parse ⟨message, Cursor.pos r⟩)
  unmoved : r.Unmoved (Cursor.perform c r).2

/-! ## One call on both -/

/-- **One call on both cursors.**  The array cursor keeps its move only if the answers are the
same. -/
def follow (p : Reader × ArrayCursor UInt8) (c : Call) : Reader × ArrayCursor UInt8 :=
  ((Cursor.perform c p.1).2,
    if (Cursor.perform c p.1).1 = (Cursor.perform c p.2).1 then (Cursor.perform c p.2).2 else p.2)

/-- After any number of failing tries the byte is still the one the array cursor has. -/
theorem InStep.retry (h : InStep source config m r) {b : UInt8} (hb : (Cursor.next m).1 = .ok b) :
    ∀ k, (∀ j < k, (retried j r).FailsToRead) →
      (retried k r).FailsToRead ∨ (Cursor.next (retried k r)).1 = .ok b := by
  intro k
  induction k generalizing r with
  | zero =>
    intro _
    rcases h.next with ⟨heq, -⟩ | ⟨-, e, -, hfail, -⟩
    · exact .inr (heq.symm.trans hb)
    · exact .inl ⟨_, e, hfail⟩
  | succ k ih =>
    intro hfails
    obtain ⟨p, e, hfail⟩ := hfails 0 (Nat.succ_pos k)
    rcases h.next with ⟨heq, -⟩ | ⟨-, -, -, -, -, hstep, -⟩
    · -- the first try has failed, and the array cursor's has not
      exact nomatch hfail.symm.trans (heq.symm.trans hb)
    · exact ih hstep fun j hj => hfails (j + 1) (Nat.succ_lt_succ hj)

/-- **One call**: the three things it can be, with what is in step afterwards. -/
theorem InStep.perform (h : InStep source config m r) (c : Call) :
    (Agrees c r m ∧ InStep source config (Cursor.perform c m).2 (Cursor.perform c r).2) ∨
      (Stalls c r m ∧ InStep source config m (Cursor.perform c r).2) ∨
      (Refuses c r ∧ InStep source config m (Cursor.perform c r).2) := by
  cases c with
  | atEnd =>
    refine .inl ⟨⟨?_, h.view_eq.symm⟩, h⟩
    simp only [Cursor.perform]
    rw [h.atEnd_eq]
  | pos =>
    refine .inl ⟨⟨?_, h.view_eq.symm⟩, h⟩
    have hpos : Cursor.pos m = Cursor.pos r := h.pos_eq
    simp only [Cursor.perform]
    rw [hpos]
  | peek =>
    refine .inl ⟨⟨?_, h.view_eq.symm⟩, h⟩
    exact congrArg (Except.map Answer.symbol) h.peek_eq.symm
  | next =>
    rcases h.next with ⟨heq, hstep⟩ | ⟨b, e, hb, hfail, -, hstep, hunmoved⟩
    · exact .inl ⟨⟨congrArg (Except.map Answer.symbol) heq.symm, hstep.view_eq.symm⟩, hstep⟩
    · refine .inr (.inl ⟨⟨rfl, ⟨r.loadedEnd, e, ?_⟩, hunmoved, b, hb, hstep.retry hb⟩, hstep⟩)
      exact congrArg (Except.map Answer.symbol) hfail
  | back n =>
    rcases h.back n with ⟨heq, hstep⟩ | ⟨hle, hwindow, hok, heq⟩
    · exact .inl ⟨⟨congrArg (Except.map fun _ => Answer.done) heq.symm, hstep.view_eq.symm⟩, hstep⟩
    · have hperform : Cursor.perform (.back n) r = (.error (r.backPastWindow n), r) := by
        change ((r.back n).1.map _, (r.back n).2) = _
        rw [heq]
        rfl
      refine .inr (.inr ⟨⟨⟨n, rfl, hle, hwindow⟩, ⟨_, congrArg Prod.fst hperform⟩, ?_⟩, ?_⟩)
      · rw [hperform]
        exact ⟨rfl, rfl⟩
      · rwa [hperform]

/-! ## No two at once -/

/-- A call that stalls is answered differently by the array cursor. -/
theorem Stalls.answer_ne (h : Stalls c r m) :
    (Cursor.perform c r).1 ≠ (Cursor.perform c m).1 := by
  obtain ⟨rfl, ⟨p, e, hfail⟩, -, b, hb, -⟩ := h
  intro heq
  have hok : (Cursor.perform .next m).1 = .ok (.symbol b) := congrArg (Except.map Answer.symbol) hb
  rw [hfail, hok] at heq
  cases heq

/-- So is a step back that is refused: an array cursor forgets nothing. -/
theorem Refuses.answer_ne (h : Refuses c r) (hpos : m.pos = r.pos) :
    (Cursor.perform c r).1 ≠ (Cursor.perform c m).1 := by
  obtain ⟨⟨n, rfl, hle, -⟩, ⟨message, hfail⟩, -⟩ := h
  intro heq
  have hback := congrArg Prod.fst (m.back_eq_backFrom n)
  have hle' : n ≤ m.pos := hpos ▸ hle
  rw [Cursor.backFrom, if_pos hle'] at hback
  have hok : (Cursor.perform (.back n) m).1 = .ok .done :=
    congrArg (Except.map fun _ => Answer.done) hback
  rw [hfail, hok] at heq
  cases heq

/-- **Side by side, the two stay in step**, whatever is called. -/
theorem InStep.follow {p : Reader × ArrayCursor UInt8} (h : InStep source config p.2 p.1)
    (c : Call) : InStep source config (follow p c).2 (follow p c).1 := by
  unfold Reader.follow
  rcases h.perform c with ⟨hagrees, hstep⟩ | ⟨hstalls, hstep⟩ | ⟨hrefuses, hstep⟩
  · rwa [if_pos hagrees.answer_eq]
  · rwa [if_neg hstalls.answer_ne]
  · rwa [if_neg (hrefuses.answer_ne h.pos_eq)]

theorem InStep.followAll (calls : List Call) {p : Reader × ArrayCursor UInt8}
    (h : InStep source config p.2 p.1) :
    InStep source config (calls.foldl Reader.follow p).2 (calls.foldl Reader.follow p).1 := by
  induction calls generalizing p with
  | nil => exact h
  | cons c calls ih => exact ih (h.follow c)

/-- The array cursor does not disturb the reader. -/
theorem foldl_follow_fst (calls : List Call) (p : Reader × ArrayCursor UInt8) :
    (calls.foldl follow p).1 = Cursor.performAll calls p.1 := by
  induction calls generalizing p with
  | nil => rfl
  | cons c calls ih => exact ih (follow p c)

/-! ## Nothing lost, nothing twice, nothing out of order -/

/-- The byte a call takes is the one delivered at the position, and the position moves past it; no
other call but a step back moves it. -/
theorem Invariant.take_taken? (h : Invariant source config r) {c : Call}
    (hforward : ∀ n, c ≠ .back n) :
    (source.delivered config.chunkSize).take r.pos ++ (Cursor.taken? c r).toList
      = (source.delivered config.chunkSize).take (Cursor.perform c r).2.pos := by
  cases c with
  | atEnd => exact List.append_nil _
  | pos => exact List.append_nil _
  | peek => exact List.append_nil _
  | back n => exact absurd rfl (hforward n)
  | next =>
    change _ ++ r.next.1.toOption.toList = List.take r.next.2.pos _
    rcases h.next_eq_nextAt_or with hnext | ⟨b, e, src', -, -, hnext⟩
    · rw [Cursor.nextAt] at hnext
      cases hget : (source.delivered config.chunkSize)[r.pos]? with
      | none =>
        obtain ⟨hfst, hpos⟩ := Prod.mk.inj (hnext.trans (by rw [hget]))
        rw [hfst, hpos]
        exact List.append_nil _
      | some b =>
        obtain ⟨hfst, hpos⟩ := Prod.mk.inj (hnext.trans (by rw [hget]))
        rw [hfst, hpos, List.take_add_one, hget]
        rfl
    · rw [hnext]
      exact List.append_nil _

/-- **Without a step back, the bytes taken are those delivered, in order up to the position.** -/
theorem Invariant.take_takenAll (calls : List Call) (h : Invariant source config r)
    (hforward : ∀ n, .back n ∉ calls) :
    (source.delivered config.chunkSize).take r.pos ++ Cursor.takenAll calls r
      = (source.delivered config.chunkSize).take (Cursor.performAll calls r).pos := by
  induction calls generalizing r with
  | nil => exact List.append_nil _
  | cons c calls ih =>
    have hhead : ∀ n, c ≠ .back n := fun n hc => hforward n (hc ▸ List.mem_cons_self)
    have htail : ∀ n, .back n ∉ calls := fun n hn => hforward n (List.mem_cons_of_mem _ hn)
    rw [Cursor.takenAll, ← List.append_assoc, h.take_taken? hhead, ih (h.perform c) htail]
    rfl

/-! ## The whole run -/

/-- **A reader in lockstep with an array cursor over all that is delivered.**  After any run of
calls, made on both: the two stand at the same position of the same input; the next call is exactly
one of `Agrees`, `Stalls` and `Refuses`, and the array cursor moves in the first case only; the
window and what is to come are the input from the window's start on; and if there was no step back,
the bytes taken so far are the input up to the position. -/
theorem lockstep_call {r₀ : Reader} (h : ofSource source config = .ok r₀) (calls : List Call)
    (c : Call) :
    let D := source.delivered config.chunkSize
    let p := calls.foldl follow (r₀, .ofList D)
    let r := p.1
    let m := p.2
    r = Cursor.performAll calls r₀ ∧ m.toList = D ∧ m.pos = r.pos ∧
      (Agrees c r m ∨ Stalls c r m ∨ Refuses c r) ∧
      ¬ (Agrees c r m ∧ Stalls c r m) ∧ ¬ (Agrees c r m ∧ Refuses c r) ∧
      ¬ (Stalls c r m ∧ Refuses c r) ∧
      (Agrees c r m → (follow p c).2 = (Cursor.perform c m).2) ∧
      (¬ Agrees c r m → (follow p c).2 = m) ∧
      D.drop r.windowStart = r.window.toList ++ r.toCome ∧
      ((∀ n, .back n ∉ calls) → Cursor.takenAll calls r₀ = D.take r.pos) := by
  intro D p r m
  have hstep : InStep source config m r :=
    InStep.followAll (p := (r₀, .ofList D)) calls (InStep.start h)
  have hreader : r = Cursor.performAll calls r₀ := foldl_follow_fst calls (r₀, .ofList D)
  have hone := hstep.perform c
  refine ⟨hreader, hstep.toList_eq, hstep.pos_eq, ?_, ?_, ?_, ?_, ?_, ?_, ?_, ?_⟩
  · exact hone.imp And.left (Or.imp And.left And.left)
  · rintro ⟨hagrees, hstalls⟩
    exact hstalls.answer_ne hagrees.answer_eq
  · rintro ⟨hagrees, hrefuses⟩
    exact hrefuses.answer_ne hstep.pos_eq hagrees.answer_eq
  · rintro ⟨hstalls, ⟨n, rfl, -⟩, -⟩
    exact nomatch hstalls.call_eq
  · intro hagrees
    exact if_pos hagrees.answer_eq
  · intro hnot
    rcases hone with ⟨hagrees, -⟩ | ⟨hstalls, -⟩ | ⟨hrefuses, -⟩
    · exact absurd hagrees hnot
    · exact if_neg hstalls.answer_ne
    · exact if_neg (hrefuses.answer_ne hstep.pos_eq)
  · exact hstep.invariant.drop_delivered
  · intro hforward
    have htaken := (invariant_ofSource h).take_takenAll calls hforward
    rw [pos_ofSource h] at htaken
    rw [hreader]
    exact htaken

theorem stutteringReader_stalls :
    ofSource stutteringSource ⟨2, some 1⟩ = .ok stutteringReader ∧
      Stalls .next stutteringReader (.ofList (stutteringSource.delivered 2)) := by
  obtain ⟨-, -, -, hone, -⟩ := lockstep_call ofSource_stutteringSource [] .next
  refine ⟨ofSource_stutteringSource, ?_⟩
  rcases hone with hagrees | hstalls | hrefuses
  · exact absurd hagrees.answer_eq (by decide)
  · exact hstalls
  · obtain ⟨⟨n, hn, -⟩, -⟩ := hrefuses
    cases hn

end Backtrack.Reader
