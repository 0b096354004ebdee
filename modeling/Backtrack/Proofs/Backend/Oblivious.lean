import Backtrack.Proofs.Backend.Backtracking

/-!
# Proofs/Backend/Oblivious — what is behind the start makes no difference

          ys at 0      ──p──▸   result,              ys at q
    xs ++ ys at |xs|   ──p──▸   result, |xs| later,  xs ++ ys at |xs| + q

Symbols put in front of the data move every position up by their number and change nothing else, if
the parser is *oblivious* to them.  Looking and taking are, and so is whatever goes on after a
value, or after a failure without a look at where that is.  What needs an argument is the return of
an attempt, which names an absolute position.

**An oblivious action never ends before its start**: what it does in the middle of the data is what
it does at the beginning of the rest, where nothing is before the start.  So the start of an attempt
is still within the data when it fails, the return works out, and it is moved up like all else.
-/

namespace Backtrack

variable {N : Type → Type} {τ α β : Type}

/-- A failure moved up by `d` positions; a fatal one stays as it is. -/
def Failure.shift (d : Nat) : Failure → Failure
  | parse e => parse (e.relocate (d + e.position))
  | stream e => stream e

/-! ## Symbols put in front -/

namespace Cursor

theorem getElem?_append_pos (xs items : List τ) (p : Nat) :
    (xs ++ items)[xs.length + p]? = items[p]? := by
  rw [List.getElem?_append_right (Nat.le_add_right _ _), Nat.add_sub_cancel_left]

theorem peekAt_append (xs items : List τ) (p : Nat) :
    peekAt (xs ++ items) (xs.length + p)
      = (peekAt items p).mapError (Failure.shift xs.length) := by
  rw [peekAt, peekAt, getElem?_append_pos]
  cases items[p]? <;> rfl

theorem nextAt_append (xs items : List τ) (p : Nat) :
    nextAt (xs ++ items) (xs.length + p)
      = ((nextAt items p).1.mapError (Failure.shift xs.length),
          xs.length + (nextAt items p).2) := by
  rw [nextAt, nextAt, getElem?_append_pos]
  cases items[p]? <;> rfl

end Cursor

namespace ArrayCursor

/-- **The same place with `xs` in front of the data.** -/
def prepend (xs : List τ) (c : ArrayCursor τ) : ArrayCursor τ where
  items := (xs ++ c.toList).toArray
  pos := xs.length + c.pos
  pos_le := by
    rw [List.size_toArray, List.length_append]
    exact Nat.add_le_add_left c.pos_le _

variable (xs : List τ) (c : ArrayCursor τ)

@[simp] theorem toList_prepend : (c.prepend xs).toList = xs ++ c.toList := rfl

@[simp] theorem pos_prepend : (c.prepend xs).pos = xs.length + c.pos := rfl

theorem length_take_pos : (c.toList.take c.pos).length = c.pos := by
  rw [List.length_take]
  exact Nat.min_eq_left c.pos_le

/-- Every place is the beginning of the rest, with what was consumed in front. -/
theorem prepend_remaining : (ofList c.remaining).prepend (c.toList.take c.pos) = c :=
  eq_of_toList_eq (List.take_append_drop c.pos c.toList) c.length_take_pos

/-! ### The operations -/

theorem atEnd_prepend : Cursor.atEnd (c.prepend xs) = Cursor.atEnd c := by
  rw [Bool.eq_iff_iff, atEnd_iff, atEnd_iff, toList_prepend, pos_prepend,
    Cursor.getElem?_append_pos]

theorem peek_prepend : (c.prepend xs).peek = c.peek.mapError (Failure.shift xs.length) := by
  rw [peek_eq_peekAt, peek_eq_peekAt]
  exact Cursor.peekAt_append xs c.toList c.pos

theorem next_prepend : (c.prepend xs).next
    = (c.next.1.mapError (Failure.shift xs.length), c.next.2.prepend xs) := by
  have hthere := (c.prepend xs).next_eq_nextAt
  rw [toList_prepend, pos_prepend, Cursor.nextAt_append, ← next_eq_nextAt] at hthere
  obtain ⟨hresult, hpos⟩ := Prod.mk.inj hthere
  exact Prod.ext hresult (eq_of_toList_eq (by simp) hpos)

/-- A return to a place within the data works out, with or without symbols in front. -/
theorem exists_rewind_prepend {target : Nat} (h : target ≤ c.toList.length) :
    ∃ c', Cursor.rewind target c = (.ok (), c') ∧
      Cursor.rewind (xs.length + target) (c.prepend xs) = (.ok (), c'.prepend xs) := by
  obtain ⟨c₁, hrewind, hpos, hdata⟩ := indexed.exists_rewind h
  have h' : xs.length + target ≤ (c.prepend xs).toList.length := by simpa using h
  obtain ⟨c₂, hrewind', hpos', hdata'⟩ := indexed.exists_rewind h'
  obtain rfl : c₂ = c₁.prepend xs := by
    refine eq_of_toList_eq ?_ ?_
    · rw [hdata', toList_prepend, toList_prepend, hdata]
    · exact hpos'.trans (congrArg (xs.length + ·) hpos.symm)
  exact ⟨c₁, hrewind, hrewind'⟩

end ArrayCursor

/-! ## Oblivious actions -/

namespace Action

variable {xs : List τ} {c : ArrayCursor τ}

/-- An outcome with `xs` in front of the data: the same value, or the same failure moved up, and the
cursor left at the same place. -/
def prepended (xs : List τ) (out : Except Failure α × ArrayCursor τ) :
    Except Failure α × ArrayCursor τ :=
  (out.1.mapError (Failure.shift xs.length), out.2.prepend xs)

/-- **An action to which it makes no difference what is behind its start.** -/
def Oblivious (a : Action (ArrayCursor τ) α) : Prop :=
  ∀ (xs : List τ) (c : ArrayCursor τ), a (c.prepend xs) = (a c).map (prepended xs)

/-- **It never ends before its start.** -/
theorem Oblivious.pos_le {a : Action (ArrayCursor τ) α} (ha : Oblivious a)
    {x : Except Failure α} {c' : ArrayCursor τ} (h : a c = some (x, c')) : c.pos ≤ c'.pos := by
  rw [← c.prepend_remaining, ha] at h
  obtain ⟨out, -, hout⟩ := Option.map_eq_some_iff.1 h
  obtain rfl : out.2.prepend (c.toList.take c.pos) = c' := (Prod.mk.inj hout).2
  rw [ArrayCursor.pos_prepend, c.length_take_pos]
  exact Nat.le_add_right _ _

/-! ### The two ways to go on

From one cursor, so that what goes on may know how the first part ended. -/

theorem bind_prepend {a b : Action (ArrayCursor τ) α} {f g : α → Action (ArrayCursor τ) β}
    (h : a (c.prepend xs) = (b c).map (prepended xs))
    (hf : ∀ v c', b c = some (.ok v, c') → f v (c'.prepend xs) = (g v c').map (prepended xs)) :
    a.bind f (c.prepend xs) = (b.bind g c).map (prepended xs) := by
  rw [bind, bind, h]
  rcases hout : b c with _ | ⟨e | v, c'⟩
  · rfl
  · rfl
  · exact hf v c' hout

theorem recover_prepend {a b : Action (ArrayCursor τ) α}
    {f g : ParseError → Action (ArrayCursor τ) α}
    (h : a (c.prepend xs) = (b c).map (prepended xs))
    (hf : ∀ e c', b c = some (.error (.parse e), c') →
      f (e.relocate (xs.length + e.position)) (c'.prepend xs) = (g e c').map (prepended xs)) :
    a.recover f (c.prepend xs) = (b.recover g c).map (prepended xs) := by
  rw [recover, recover, h]
  rcases hout : b c with _ | ⟨(e | e) | v, c'⟩
  · rfl
  · exact hf e c' hout
  · rfl
  · rfl

namespace Oblivious

variable {a : Action (ArrayCursor τ) α}

theorem pure (v : α) : Oblivious (pure v : Action (ArrayCursor τ) α) := fun _ _ => rfl

theorem spent : Oblivious (spent : Action (ArrayCursor τ) α) := fun _ _ => rfl

theorem fail_stream (e : StreamError) :
    Oblivious (fail (.stream e) : Action (ArrayCursor τ) α) := fun _ _ => rfl

theorem error (message : String) : Oblivious (error message : Action (ArrayCursor τ) α) :=
  fun _ _ => rfl

theorem askAtEnd : Oblivious (ask (Cursor.atEnd : ArrayCursor τ → Bool)) :=
  fun xs c => congrArg (fun ended => some (Except.ok ended, c.prepend xs)) (c.atEnd_prepend xs)

theorem peek : Oblivious (ofOp (Cursor.peek : ArrayCursor τ → _)) :=
  fun xs c => congrArg (fun seen => some (seen, c.prepend xs)) (c.peek_prepend xs)

theorem next : Oblivious (ofOp (Cursor.next : ArrayCursor τ → _)) :=
  fun xs c => congrArg some (c.next_prepend xs)

theorem bind {f : α → Action (ArrayCursor τ) β} (ha : Oblivious a) (hf : ∀ v, Oblivious (f v)) :
    Oblivious (a.bind f) := fun xs c => bind_prepend (ha xs c) fun v c' _ => hf v xs c'

theorem map (f : α → β) (ha : Oblivious a) : Oblivious (a.map f) := ha.bind fun _ => pure _

/-- What goes on after a failure may not look at where it is. -/
theorem recover {handler : ParseError → Action (ArrayCursor τ) α} (ha : Oblivious a)
    (hignores : IgnoresPosition handler) (hhandler : ∀ e, Oblivious (handler e)) :
    Oblivious (a.recover handler) := by
  intro xs c
  refine recover_prepend (ha xs c) fun e c' _ => ?_
  rw [hignores]
  exact hhandler e xs c'

theorem label (message : String) (ha : Oblivious a) : Oblivious (a.label message) :=
  fun xs c => recover_prepend (ha xs c) fun _ _ _ => rfl

/-! ### Attempts -/

/-- The start of an action is within the data where it ends, so a return to it is moved up. -/
theorem rewind (ha : Oblivious a) {x : Except Failure α} {c' : ArrayCursor τ}
    (h : a c = some (x, c')) (xs : List τ) :
    rewind (xs.length + c.pos) (c'.prepend xs)
      = (Action.rewind c.pos c').map (prepended xs) := by
  obtain ⟨c₁, hrewind, hrewind'⟩ :=
    c'.exists_rewind_prepend xs (Nat.le_trans (ha.pos_le h) c'.pos_le)
  rw [rewind_eq_some_iff.2 hrewind, rewind_eq_some_iff.2 hrewind']
  rfl

theorem attempt (ha : Oblivious a) : Oblivious a.attempt := by
  intro xs c
  refine recover_prepend (ha xs c) fun e c' hout => ?_
  exact bind_prepend (ha.rewind hout xs) fun _ _ _ => rfl

theorem optional (ha : Oblivious a) : Oblivious a.optional :=
  (ha.attempt.map some).recover (fun _ _ => rfl) fun _ => pure none

theorem lookAhead (ha : Oblivious a) : Oblivious a.lookAhead := by
  intro xs c
  refine bind_prepend (ha.attempt xs c) fun v c' hout => ?_
  exact bind_prepend (ha.attempt.rewind hout xs) fun _ _ _ => rfl

/-! ### Repetition and choice -/

theorem many (ha : Oblivious a) : ∀ n : Nat, Oblivious (a.many n)
  | 0 => spent
  | n + 1 => by
    refine ha.optional.bind fun found => ?_
    cases found with
    | none => exact pure []
    | some v => exact (ha.many n).map _

theorem manyOne (n : Nat) (ha : Oblivious a) : Oblivious (a.manyOne n) := by
  intro xs c
  refine bind_prepend (ha.many n xs c) fun values c' _ => ?_
  cases values <;> rfl

theorem scan (accepts : τ → Bool) (step : τ → β → β) (init : β) : ∀ n : Nat,
    Oblivious (scan accepts step init n : Action (ArrayCursor τ) β)
  | 0 => spent
  | n + 1 => by
    refine askAtEnd.bind fun ended => ?_
    cases ended with
    | true => exact pure init
    | false =>
      refine peek.bind fun seen => ?_
      cases accepts seen with
      | true => exact next.bind fun _ => (scan accepts step init n).map _
      | false => exact pure init

/-- The failure of all alternatives is about the start, wherever the last one leaves the cursor. -/
theorem alt {as : List (Action (ArrayCursor τ) α)} (has : ∀ a ∈ as, Oblivious a) :
    Oblivious (alt as) := by
  intro xs c
  rw [Action.alt, Action.alt, show Cursor.pos (c.prepend xs) = xs.length + Cursor.pos c from rfl]
  generalize Cursor.pos c = start
  induction as generalizing c with
  | nil => rfl
  | cons a as ih =>
    refine recover_prepend ((has a List.mem_cons_self).attempt xs c) fun _ c' _ => ?_
    exact ih (fun a' ha' => has a' (List.mem_cons_of_mem _ ha')) c'

end Oblivious

end Action

/-! ## Oblivious parsers -/

/-- The class of parsers that leave positions alone: none steps back by itself, asks for its
position or that of a failure, fails about one of its own choice or turns failures into values. -/
def featureless (_ : Feature) : Prop := False

theorem Parser.oblivious_denote {rule : ∀ β : Type, N β → Action (ArrayCursor τ) β}
    (hrule : ∀ β (r : N β), (rule β r).Oblivious) (n : Nat) {p : Parser N τ α}
    (hp : p.Within featureless) : (p.denote rule n).Oblivious := by
  induction p with
  | pure v => exact .pure v
  | bind p f ihp ihf => exact (ihp hp.1).bind fun v => ihf v (hp.2 v)
  | call r => exact hrule _ r
  | atEnd => exact .askAtEnd
  | position => exact absurd hp id
  | peek => exact .peek
  | next => exact .next
  | back k => exact absurd hp id
  | error message => exact .error message
  | raise f =>
    cases f with
    | parse e => exact absurd (hp rfl) id
    | stream e => exact .fail_stream e
  | recover p handler ihp ihhandler =>
    have hignores : IgnoresPosition handler := hp.2.2.resolve_left id
    refine (ihp hp.1).recover (fun e position => ?_) fun e => ihhandler e (hp.2.1 e)
    rw [hignores]
  | label message p ih => exact (ih hp).label message
  | observe p ih => exact absurd hp.1 id
  | attempt p ih => exact (ih hp).attempt
  | optional p ih => exact (ih hp).optional
  | lookAhead p ih => exact (ih hp).lookAhead
  | many p ih => exact (ih hp).many n
  | manyOne p ih => exact (ih hp).manyOne n
  | choice ps ih =>
    rw [denote, Action.firstOf_eq_alt]
    exact .alt (List.forall_mem_ofFn_iff.2 fun i => ih i (hp i))
  | nested ps ih => exact .alt (List.forall_mem_ofFn_iff.2 fun i => ih i (hp i))
  | scan accepts step init => exact .scan accepts step init n

theorem Grammar.oblivious_unfold {G : Grammar N τ} (hG : G.Within featureless) (n : Nat) :
    ∀ β (r : N β), (G.unfold n β r : Action (ArrayCursor τ) β).Oblivious := by
  induction n with
  | zero => exact fun _ _ => .spent
  | succ n ih => exact fun _ r => Parser.oblivious_denote ih n (hG r)

theorem Grammar.oblivious_run {G : Grammar N τ} (hG : G.Within featureless) (n : Nat)
    {p : Parser N τ α} (hp : p.Within featureless) :
    (G.run n p : Action (ArrayCursor τ) α).Oblivious :=
  Parser.oblivious_denote (oblivious_unfold hG n) n hp

/-- **Parsers depend only on the remaining input.**  Whatever is put in front of the data, a run
with any budget is the same but for positions, which are moved up: at the beginning of `ys`, the
place with `xs` in front is `|xs|` in `xs ++ ys`.  And no run ends before its start. -/
theorem run_depends_on_remaining {G : Grammar N τ} (hG : G.Within featureless) {p : Parser N τ α}
    (hp : p.Within featureless) :
    (∀ (n : Nat) (xs : List τ) (c : ArrayCursor τ),
      G.run n p (c.prepend xs) = (G.run n p c).map (Action.prepended xs)) ∧
    ∀ {c c' : ArrayCursor τ} {x : Except Failure α}, G.Yields p c x c' →
      Cursor.pos c ≤ Cursor.pos c' := by
  refine ⟨fun n => Grammar.oblivious_run hG n hp, fun h => ?_⟩
  obtain ⟨n, hn⟩ := h
  exact (Grammar.oblivious_run hG n hp).pos_le hn

/-- Digits with commas between them, and nothing after them. -/
def digitRow : Parser (fun _ => Empty) UInt8 (List Nat) :=
  .bind (.sepBy .digit (.satisfy (· == 44))) fun row => .bind .endOfInput fun _ => .pure row

/-- A row that ends in a comma fails in front of it, two positions later with `9,` in front. -/
theorem digitRow_behind_a_digit :
    let G : Grammar (fun _ => Empty) UInt8 := ⟨fun r => nomatch r⟩
    let row := ArrayCursor.ofList [49, 44, 50, 44]
    ∃ c, G.Yields digitRow row (.error (.parse ⟨"expected end of input", 3⟩)) c ∧ c.pos = 3 ∧
      G.Yields digitRow (row.prepend [57, 44]) (.error (.parse ⟨"expected end of input", 5⟩))
        (c.prepend [57, 44]) ∧
      Cursor.pos (row.prepend [57, 44]) ≤ Cursor.pos (c.prepend [57, 44]) := by
  intro G row
  have hG : G.Within featureless := fun r => nomatch r
  have hp : digitRow.Within featureless :=
    ⟨Parser.within_sepBy Parser.within_digit (Parser.within_test _ _),
      fun _ => ⟨Parser.within_endOfInput, fun _ => trivial⟩⟩
  have hrun : G.run 3 digitRow row = some (.error (.parse ⟨"expected end of input", 3⟩),
    ⟨#[49, 44, 50, 44], 3, by decide⟩) := rfl
  have hfront := (run_depends_on_remaining hG hp).1 3 [57, 44] row
  rw [hrun] at hfront
  exact ⟨_, ⟨3, hrun⟩, rfl, ⟨3, hfront⟩, (run_depends_on_remaining hG hp).2 ⟨3, hfront⟩⟩

end Backtrack
