import Backtrack.Proofs.Reader.Outcome
import Backtrack.Proofs.Text.Matching
import Backtrack.Proofs.Text.Number
import Backtrack.Proofs.Text.Words

/-!
# Proofs/Text/AllOrNothing — a value, or a cursor as it was

    s ──value──▸ value              s' behind it
      ──value──▸ failure about s    s' shows what s shows
      ──value──▸ restore            the reader has forgotten s
      ──value──▸ read               a byte could not be loaded

Over loaded data each of the parsers of values takes all of its value or leaves the cursor alone.
On a reader it does what it does over the bytes that are delivered, unless a byte cannot be loaded,
or a value is not there and the window has moved past its start by the time that is known.

**The two truth values differ in their first byte.**  So one that fails late leaves nothing for the
other, and no truth value is lost to a window that is too small.
-/

namespace Backtrack

variable {N : Type → Type} {α : Type} {source : Source} {config : ReaderConfig}

open ArrayCursor (between)

/-! ## Truth values -/

namespace Parser

/-- One of the two truth values. -/
def truth (b : Bool) : Parser N UInt8 Bool := bind (literal (toString b)) fun _ => pure b

end Parser

/-- **A truth value is a choice between the two**, with a message of its own. -/
theorem Grammar.yields_boolean_iff {σ : Type} [Cursor σ UInt8] {G : Grammar N UInt8} {s s' : σ}
    {x : Except Failure Bool} : G.Yields .boolean s x s' ↔
      ∃ y, G.Yields (.firstOf [.truth true, .truth false]) s y s' ∧
        x = relabelled "expected `true` or `false`" y := by
  refine yields_label_iff.trans (exists_congr fun y => and_congr_left fun _ => ?_)
  refine exists_congr fun n => ?_
  rw [run_alt]
  rfl

/-- The text of a truth value, byte by byte. -/
def Byte.ofTruth (b : Bool) : List UInt8 := ofText (toString b)

theorem Byte.ofTruth_ne_nil (b : Bool) : ofTruth b ≠ [] := by
  cases b <;> decide

/-- **The first byte tells them apart.** -/
theorem Byte.ofTruth_unique {b b' : Bool} {common text : List UInt8} (hne : common ≠ [])
    (hcommon : common <+: ofTruth b) (htext : common <+: text) (htruth : ofTruth b' <+: text) :
    b' = b := by
  have hfirst : (ofTruth b).head (ofTruth_ne_nil b) = (ofTruth b').head (ofTruth_ne_nil b') := by
    rw [← hcommon.head hne, htext.head hne, htruth.head (ofTruth_ne_nil b')]
  revert hfirst
  cases b <;> cases b' <;> decide

namespace ArrayCursor

variable (G : Grammar N UInt8) (m : ArrayCursor UInt8)

/-- **A truth value is taken or not**, and where it is not, the bytes it shares with the input
are. -/
theorem truth_cases (b : Bool) :
    (Byte.ofTruth b <+: m.remaining ∧ ∃ m', G.Yields (.truth b) m (.ok b) m' ∧
        m'.pos = m.pos + (Byte.ofTruth b).length) ∨
      (¬ Byte.ofTruth b <+: m.remaining ∧ ∃ e m₁ common,
        G.Yields (.truth b) m (.error (.parse e)) m₁ ∧ m₁.pos = m.pos + common.length ∧
        common <+: Byte.ofTruth b ∧ common <+: m.remaining) := by
  obtain ⟨common, m₁, hlongest, hmatches⟩ := feeds.matches_up_to G (toString b) (s := m) trivial
  have hyields := hmatches.yields
  have hpos := hmatches.further.pos_eq
  by_cases hbegins : Byte.ofText (toString b) <+: m.remaining
  · rw [if_pos hbegins] at hyields
    rw [hmatches.length_eq hbegins, ← Byte.length_ofText] at hpos
    exact .inl ⟨hbegins, m₁, hyields.bind (Grammar.yields_pure b), hpos⟩
  · rw [if_neg hbegins] at hyields
    exact .inr ⟨hbegins, _, m₁, common, hyields.bind_error _, hpos, hlongest.of_text,
      hlongest.begins⟩

variable {G m}

theorem yields_truth_ok {b : Bool} (h : Byte.ofTruth b <+: m.remaining) :
    ∃ m', G.Yields (.truth b) m (.ok b) m' ∧ m'.pos = m.pos + (Byte.ofTruth b).length := by
  obtain ⟨-, hyields⟩ | ⟨hnot, -⟩ := truth_cases G m b
  · exact hyields
  · exact absurd h hnot

theorem rejects_truth {b : Bool} (h : ¬ Byte.ofTruth b <+: m.remaining) :
    G.Rejects (.truth b) m := by
  obtain ⟨hbegins, -⟩ | ⟨-, e, m₁, -, hyields, -⟩ := truth_cases G m b
  · exact absurd hbegins h
  · exact ⟨e, m₁, hyields⟩

/-- **Where one of them fails late, the other fails.** -/
theorem rejects_truth_of_late {b b' : Bool} (hb : b' ≠ b) {e : ParseError} {m₁ : ArrayCursor UInt8}
    (h : G.Yields (.truth b) m (.error (.parse e)) m₁) (hlate : m.pos < m₁.pos) :
    G.Rejects (.truth b') m := by
  obtain ⟨-, m', hyields, -⟩ | ⟨-, e', m₂, common, hyields, hpos, hcommon, hbegins⟩ :=
    truth_cases G m b
  · cases (h.unique hyields).1
  · obtain rfl := (h.unique hyields).2
    have hne : common ≠ [] := by
      rintro rfl
      rw [hpos] at hlate
      exact absurd hlate (Nat.lt_irrefl _)
    exact rejects_truth fun htruth => hb (Byte.ofTruth_unique hne hcommon hbegins htruth)

/-- **A truth value is read where one of the two texts comes next**, and nowhere else. -/
theorem boolean_cases (G : Grammar N UInt8) (m : ArrayCursor UInt8) :
    (∃ b m', Byte.ofTruth b <+: m.remaining ∧ G.Yields .boolean m (.ok b) m' ∧
        m'.pos = m.pos + (Byte.ofTruth b).length) ∨
      ((∀ b, ¬ Byte.ofTruth b <+: m.remaining) ∧ G.Yields .boolean m
        (.error (.parse ⟨"expected `true` or `false`", m.pos⟩)) m) := by
  have hlabel : ∀ {y m'}, G.Yields (.firstOf [.truth true, .truth false]) m y m' →
      G.Yields .boolean m (relabelled "expected `true` or `false`" y) m' :=
    fun h => Grammar.yields_boolean_iff.2 ⟨_, h, rfl⟩
  by_cases htrue : Byte.ofTruth true <+: m.remaining
  · obtain ⟨m', hyields, hpos⟩ := yields_truth_ok (G := G) htrue
    exact .inl ⟨true, m', htrue, hlabel (yields_firstOf_cons_iff.2 (.inl ⟨hyields, nofun⟩)), hpos⟩
  by_cases hfalse : Byte.ofTruth false <+: m.remaining
  · obtain ⟨m', hyields, hpos⟩ := yields_truth_ok (G := G) hfalse
    have hsecond : G.Yields (.firstOf [.truth false]) m (.ok false) m' :=
      yields_firstOf_cons_iff.2 (.inl ⟨hyields, nofun⟩)
    have hchosen := yields_firstOf_cons_iff.2 (.inr ⟨rejects_truth htrue, hsecond⟩)
    exact .inl ⟨false, m', hfalse, hlabel hchosen, hpos⟩
  · have hreject : ∀ q ∈ [.truth true, .truth false], G.Rejects q m := List.forall_mem_cons.2
      ⟨rejects_truth htrue, List.forall_mem_singleton.2 (rejects_truth hfalse)⟩
    have hnone := yields_firstOf_iff.2 (.inr ⟨hreject, rfl, rfl⟩)
    exact .inr ⟨Bool.forall_bool.2 ⟨hfalse, htrue⟩, hlabel hnone⟩

end ArrayCursor

/-! ## The parsers of values -/

/-- **A parser of values.** -/
inductive Parser.IsValue : {α : Type} → Parser N UInt8 α → Prop where
  | boolean : IsValue boolean
  | digit : IsValue digit
  | integer : IsValue integer
  | number : IsValue number
  | word : IsValue word

/-! ### Over loaded data -/

/-- **A value, or a failure about the start that leaves the cursor as it is.** -/
theorem ArrayCursor.takes_value_or_nothing (G : Grammar N UInt8) {p : Parser N UInt8 α}
    (hp : p.IsValue) (m : ArrayCursor UInt8) :
    (∃ v m', G.Yields p m (.ok v) m') ∨
      ∃ e, e.position = m.pos ∧ G.Yields p m (.error (.parse e)) m := by
  obtain ⟨before, input, rfl⟩ : ∃ before input, m = between before input :=
    ⟨_, _, m.between_remaining.symm⟩
  cases hp with
  | boolean =>
    obtain ⟨b, m', -, hyields, -⟩ | ⟨-, hyields⟩ := boolean_cases G (between before input)
    · exact .inl ⟨b, m', hyields⟩
    · exact .inr ⟨_, rfl, hyields⟩
  | digit =>
    obtain ⟨b, more, rfl, hb⟩ | hstops := accepted_or_stops Byte.isDigit input
    · exact .inl ⟨_, _, takes_digit.taken hb before more⟩
    · obtain ⟨e, hposition, hrun⟩ := ArrayCursor.feeds.test_refused G "symbol rejected by predicate"
        (s := between before input) trivial (by rwa [remaining_between]) 0
      have htest : G.Yields (.satisfy Byte.isDigit) (between before input) (.error (.parse e))
          (between before input) := ⟨0, hrun⟩
      exact .inr ⟨e, hposition, htest.bind_error _⟩
  | integer =>
    obtain ⟨negative, whole, rest, h⟩ := Literal.exists_opening input
    by_cases hwhole : whole = []
    · exact .inr ⟨_, rfl, yields_signed_refused h before takes_digit hwhole⟩
    by_cases hfits : Parser.Fits (Literal.signed negative (Literal.natural whole))
    · exact .inl ⟨_, _, yields_integer h before hwhole hfits⟩
    · exact .inr ⟨_, rfl, yields_integer_misfit h before hwhole hfits⟩
  | number =>
    obtain ⟨negative, whole, rest, h⟩ := Literal.exists_opening input
    obtain ⟨fraction, after, hfraction⟩ := Literal.exists_fractionAt rest
    by_cases hwhole : whole = []
    · exact .inr ⟨_, rfl, yields_signed_refused h before takes_satisfy_digit hwhole⟩
    · exact .inl ⟨_, _, yields_number h hwhole hfraction before⟩
  | word =>
    obtain ⟨word, after, rfl, hword, hstops⟩ := exists_run (fun b => !Byte.isWhitespace b) input
    simp only [Bool.not_eq_true', Bool.not_eq_false'] at hword hstops
    by_cases hne : word = []
    · subst hne
      exact .inr ⟨_, rfl, yields_word_refused G before hstops⟩
    · exact .inl ⟨_, _, yields_word G before hne hword hstops⟩

/-! ### On a reader -/

namespace Reader

variable (G : Grammar N UInt8) (n : Nat)

theorem shadows_expect (accepts : UInt8 → Bool) (message : String) :
    Shadows source config (G.run n (.expect accepts message))
      (G.run n (.expect accepts message)) := by
  refine .bind (.recover (shadows_peek.bind fun _ => .pure _) fun _ => .pure false)
    fun accepted => ?_
  cases accepted with
  | true => exact shadows_next.bind fun _ => .pure ()
  | false => exact shadows_error message

theorem shadows_expectAll (message : String) : ∀ bytes : List UInt8,
    Shadows source config (G.run n (.expectAll message bytes)) (G.run n (.expectAll message bytes))
  | [] => .pure ()
  | _ :: bytes => .bind (shadows_expect G n _ message) fun _ => shadows_expectAll message bytes

theorem shadows_truth (b : Bool) :
    Shadows source config (G.run n (.truth b)) (G.run n (.truth b)) :=
  .bind (.bind (shadows_expectAll G n _ _) fun _ => .pure _) fun _ => .pure b

theorem shadows_word : Shadows source config (G.run n .word) (G.run n .word) := by
  have hscan : Shadows source config (G.run n (.takeUntil Byte.isWhitespace))
      (G.run n (.takeUntil Byte.isWhitespace)) :=
    .scan InStep.atEnd_eq shadows_peek shadows_next _ _ _ (Nat.le_refl n)
  refine (hscan.bind fun _ => .pure _).bind fun text => ?_
  dsimp only
  split
  · exact shadows_error _
  · exact .pure text

variable {G} {r : Reader} {m m' : ArrayCursor UInt8}

/-- **A truth value on a reader**: the first byte decides between the two. -/
theorem comesTo_boolean (hr : Reachable source config r) (hstep : InStep source config m r)
    {x : Except Failure Bool} (h : G.Yields .boolean m x m') :
    ComesTo source config G .boolean r x m' := by
  obtain ⟨y, hy, rfl⟩ := Grammar.yields_boolean_iff.1 h
  have hshadows : ∀ p ∈ [.truth true, .truth false],
      ∀ n, Shadows source config (G.run n p) (G.run n p) := List.forall_mem_cons.2
    ⟨fun n => shadows_truth G n true, List.forall_mem_singleton.2 fun n => shadows_truth G n false⟩
  have hchosen := comesTo_firstOf hr hstep hshadows (List.pairwise_pair.2 fun e m₁ =>
    ArrayCursor.rejects_truth_of_late Bool.false_ne_true) hy
  exact hchosen.relabelled fun hy => Grammar.yields_boolean_iff.2 ⟨_, hy, rfl⟩

/-- **What becomes of a value on a reader.** -/
theorem comesTo_value {p : Parser N UInt8 α} (hp : p.IsValue) (hr : Reachable source config r)
    (hstep : InStep source config m r) {x : Except Failure α} (h : G.Yields p m x m') :
    ComesTo source config G p r x m' := by
  cases hp with
  | boolean => exact comesTo_boolean hr hstep h
  | digit => exact comesTo_of_shadows hstep (shadows_digit G) h
  | integer =>
    refine comesTo_attempt hr hstep (fun n => ?_) h
    refine (shadows_sign G n).bind fun negative => (shadows_digitValues G n).bind fun digits => ?_
    dsimp only
    split
    · exact shadows_error _
    · exact .pure _
  | number =>
    refine comesTo_attempt hr hstep (fun n => ?_) h
    have hfraction : Shadows source config (G.run n (.optional .fraction))
        (G.run n (.optional .fraction)) :=
      shadows_optional (shadows_fraction G n) (failsNearby_fraction G n hr.fault?_eq_none)
    refine (shadows_sign G n).bind fun negative => (shadows_digits G n).bind fun whole =>
      hfraction.bind fun rest => ?_
    dsimp only
    split
    · exact shadows_error _
    · exact .pure _
  | word => exact comesTo_of_shadows hstep (shadows_word G) h

end Reader

/-! ## All or nothing -/

/-- **All or nothing**: a run comes to an end, and where that is a recoverable failure, it is about
the start and the cursor shows what it showed there. -/
structure AllOrNothing {σ : Type} [Cursor σ UInt8] (G : Grammar N UInt8) (p : Parser N UInt8 α)
    (s : σ) : Prop where
  settles : ∃ x s', G.Yields p s x s'
  undone : ∀ {e s'}, G.Yields p s (.error (.parse e)) s' →
    e.position = Cursor.pos s ∧ Cursor.view s' = Cursor.view s

/-- **What a cursor has in common with the array cursor**, or fails fatally in, it has in this. -/
theorem AllOrNothing.of_array {σ : Type} [Cursor σ UInt8] {G : Grammar N UInt8}
    {p : Parser N UInt8 α} (hp : p.IsValue) {m : ArrayCursor UInt8} {s : σ}
    (hview : Cursor.view s = Cursor.view m)
    (hsame : ∀ {x m'}, G.Yields p m x m' →
      (∃ s', G.Yields p s x s' ∧ Cursor.view s' = Cursor.view m') ∨
        ∃ e s', G.Yields p s (.error (.stream e)) s') : AllOrNothing G p s where
  settles := by
    obtain ⟨v, m', hm⟩ | ⟨e, -, hm⟩ := m.takes_value_or_nothing G hp
    · obtain ⟨s', hs, -⟩ | ⟨e, s', hs⟩ := hsame hm <;> exact ⟨_, s', hs⟩
    · obtain ⟨s', hs, -⟩ | ⟨e, s', hs⟩ := hsame hm <;> exact ⟨_, s', hs⟩
  undone {e s'} h := by
    obtain ⟨v, m', hm⟩ | ⟨e', hposition, hm⟩ := m.takes_value_or_nothing G hp
    · obtain ⟨s₁, hs, -⟩ | ⟨e₁, s₁, hs⟩ := hsame hm <;> cases (h.unique hs).1
    · obtain ⟨s₁, hs, hview'⟩ | ⟨e₁, s₁, hs⟩ := hsame hm
      · obtain ⟨⟨⟩, rfl⟩ := h.unique hs
        exact ⟨hposition.trans (congrArg Cursor.View.pos hview).symm, hview'.trans hview.symm⟩
      · cases (h.unique hs).1

/-- **Truth values are read where they are**: where one of the two texts comes next it is the value,
and passed in full, unless the cursor fails; and there is no value elsewhere. -/
structure ReadsTruth {σ : Type} [Cursor σ UInt8] (G : Grammar N UInt8) (ahead : σ → List UInt8)
    (s : σ) : Prop where
  found : ∀ {b}, Byte.ofTruth b <+: ahead s →
    (∃ s', G.Yields .boolean s (.ok b) s') ∨ ∃ e s', G.Yields .boolean s (.error (.stream e)) s'
  taken : ∀ {b s'}, G.Yields .boolean s (.ok b) s' → Byte.ofTruth b <+: ahead s ∧
    Cursor.pos s' = Cursor.pos s + (Byte.ofTruth b).length ∧
    ahead s' = (ahead s).drop (Byte.ofTruth b).length

theorem ReadsTruth.of_array {σ : Type} [Cursor σ UInt8] {G : Grammar N UInt8}
    {ahead : σ → List UInt8} {m : ArrayCursor UInt8} {s : σ} (hahead : ahead s = m.remaining)
    (hpos : Cursor.pos s = m.pos)
    (hsame : ∀ {x m'}, G.Yields .boolean m x m' →
      (∃ s', G.Yields .boolean s x s' ∧ Cursor.pos s' = m'.pos ∧ ahead s' = m'.remaining) ∨
        ∃ e s', G.Yields .boolean s (.error (.stream e)) s') : ReadsTruth G ahead s where
  found {b} hbegins := by
    rw [hahead] at hbegins
    obtain ⟨b', m', hbegins', hm, -⟩ | ⟨hnone, -⟩ := ArrayCursor.boolean_cases G m
    · obtain rfl := Byte.ofTruth_unique (Byte.ofTruth_ne_nil b) List.prefix_rfl hbegins hbegins'
      exact (hsame hm).imp_left fun ⟨s', hs, _⟩ => ⟨s', hs⟩
    · exact absurd hbegins (hnone b)
  taken {b s'} h := by
    obtain ⟨b', m', hbegins, hm, hpos'⟩ | ⟨-, hm⟩ := ArrayCursor.boolean_cases G m
    · obtain ⟨s₁, hs, hpos₁, hahead₁⟩ | ⟨e, s₁, hs⟩ := hsame hm
      · obtain ⟨⟨⟩, rfl⟩ := h.unique hs
        have hdata := ArrayCursor.indexed.items_of_yields hm
        refine ⟨hahead ▸ hbegins, ?_, ?_⟩
        · rw [hpos₁, hpos', hpos]
        · rw [hahead₁, hahead, ArrayCursor.remaining, ArrayCursor.remaining, List.drop_drop,
            ← hpos']
          exact congrArg (List.drop m'.pos) hdata
      · cases (h.unique hs).1
    · obtain ⟨s₁, hs, -⟩ | ⟨e, s₁, hs⟩ := hsame hm <;> cases (h.unique hs).1

/-! ### On every cursor -/

section Cursors

variable {G : Grammar N UInt8} {p : Parser N UInt8 α}

theorem ArrayCursor.not_yields_stream (hp : p.IsValue) {m m' : ArrayCursor UInt8}
    {e : StreamError} : ¬ G.Yields p m (.error (.stream e)) m' := by
  intro h
  obtain ⟨v, m₁, hm⟩ | ⟨e', -, hm⟩ := m.takes_value_or_nothing G hp <;> cases (h.unique hm).1

/-- Every zipper has an array cursor in the same place. -/
theorem SamePlace.exists_of_list {τ : Type} (l : ListCursor τ) : ∃ m, SamePlace l m := by
  refine ⟨between l.behind.reverse l.ahead, rfl, ?_⟩
  rw [ArrayCursor.pos_between, List.length_reverse]
  exact l.pos_eq

theorem ListCursor.allOrNothing (G : Grammar N UInt8) (hp : p.IsValue) (l : ListCursor UInt8) :
    AllOrNothing G p l ∧ ∀ e l', ¬ G.Yields p l (.error (.stream e)) l' := by
  obtain ⟨m, hplace⟩ := SamePlace.exists_of_list l
  have hview : ∀ {l : ListCursor UInt8} {m}, SamePlace l m → Cursor.view l = Cursor.view m :=
    array_simulates_list.view_eq fun _ => id
  refine ⟨.of_array hp (hview hplace) fun hm => ?_, fun e l' h => ?_⟩
  · obtain ⟨l', hplace', hl⟩ := (array_simulates_list.symm fun _ => id).exists_yields hplace hm
    exact .inl ⟨l', hl, hview hplace'⟩
  · obtain ⟨m', -, hm⟩ := array_simulates_list.exists_yields hplace h
    exact ArrayCursor.not_yields_stream hp hm

theorem Reader.allOrNothing (hp : p.IsValue) {r : Reader} (hr : Reachable source config r) :
    AllOrNothing G p r := by
  obtain ⟨m, hstep⟩ := InStep.exists_of_invariant hr.invariant
  refine .of_array hp hstep.view_eq.symm fun hm => ?_
  refine (comesTo_value hp hr hstep hm).same_or_fatal.imp_left fun ⟨r', hr', hstep'⟩ => ?_
  exact ⟨r', hr', hstep'.view_eq.symm⟩

theorem Reader.readsTruth (G : Grammar N UInt8) {r : Reader} (hr : Reachable source config r) :
    ReadsTruth G remaining r := by
  obtain ⟨m, hstep⟩ := InStep.exists_of_invariant hr.invariant
  refine .of_array hstep.remaining_eq hstep.pos_eq.symm fun hm => ?_
  refine (comesTo_boolean hr hstep hm).same_or_fatal.imp_left fun ⟨r', hr', hstep'⟩ => ?_
  exact ⟨r', hr', hstep'.pos_eq.symm, hstep'.remaining_eq⟩

end Cursors

/-- **Parsers of values are all or nothing**: truth values, digits, integers, numbers and words, in
any state of the array cursor and the zipper, and in any state of a reader that calls lead to.  A
run comes to an end, and where it fails recoverably, the failure is about the start and the cursor
shows what it showed there.  Over loaded data there is no other failure.  On a reader the outcome
is that over the bytes that are delivered, unless a byte cannot be loaded, or a failure cannot be
undone because the start is forgotten; that is the fatal failure to return there.  And a truth value
is read exactly where one of the two texts comes next, and passes just that text, unless the cursor
fails. -/
theorem value_parsers_all_or_nothing :
    (∀ {N : Type → Type} {α : Type} (G : Grammar N UInt8) {p : Parser N UInt8 α}, p.IsValue →
      (∀ m : ArrayCursor UInt8, AllOrNothing G p m ∧
        ∀ e m', ¬ G.Yields p m (.error (.stream e)) m') ∧
      (∀ l : ListCursor UInt8, AllOrNothing G p l ∧
        ∀ e l', ¬ G.Yields p l (.error (.stream e)) l') ∧
      ∀ {source : Source} {config : ReaderConfig} {r : Reader},
        Reader.Reachable source config r → AllOrNothing G p r ∧
          ∃ m, Reader.InStep source config m r ∧ ∀ {x m'}, G.Yields p m x m' →
            Reader.ComesTo source config G p r x m') ∧
    ∀ {N : Type → Type} (G : Grammar N UInt8),
      (∀ m : ArrayCursor UInt8, ReadsTruth G ArrayCursor.remaining m) ∧
      (∀ l : ListCursor UInt8, ReadsTruth G ListCursor.remaining l) ∧
      ∀ {source : Source} {config : ReaderConfig} {r : Reader},
        Reader.Reachable source config r → ReadsTruth G Reader.remaining r := by
  refine ⟨fun G p hp => ⟨fun m => ⟨?_, fun _ _ => ArrayCursor.not_yields_stream hp⟩,
    ListCursor.allOrNothing G hp, fun hr => ⟨Reader.allOrNothing hp hr, ?_⟩⟩,
    fun G => ⟨fun m => ?_, fun l => ?_, Reader.readsTruth G⟩⟩
  · exact .of_array hp rfl fun hm => .inl ⟨_, hm, rfl⟩
  · obtain ⟨m, hstep⟩ := Reader.InStep.exists_of_invariant hr.invariant
    exact ⟨m, hstep, Reader.comesTo_value hp hr hstep⟩
  · exact .of_array rfl rfl fun hm => .inl ⟨_, hm, rfl, rfl⟩
  · obtain ⟨m, hplace⟩ := SamePlace.exists_of_list l
    exact .of_array hplace.remaining_eq hplace.pos_eq fun hm => .inl (hplace.exists_yields hm)

/-- A reader of the word `trip` that loads and keeps one byte. -/
def tripReader : Reader := ⟨⟨[], [114, 105, 112], 1, 1⟩, ⟨1, some 1⟩, #[116], 0, 0, false⟩

/-- Two bytes of the word are as in `true`, and by then the first is forgotten: over loaded bytes
the failure is undone, on the reader it cannot be. -/
theorem tripReader_forgets_start :
    let G : Grammar (fun _ => Empty) UInt8 := ⟨fun r => nomatch r⟩
    let source := Source.ofBytes [116, 114, 105, 112] []
    let m : ArrayCursor UInt8 := .ofList [116, 114, 105, 112]
    Reader.Reachable source ⟨1, some 1⟩ tripReader ∧ AllOrNothing G .boolean tripReader ∧
      G.Yields .boolean m (.error (.parse ⟨"expected `true` or `false`", 0⟩)) m ∧
      ∃ cause r', G.Yields .boolean tripReader (.error (.stream (.restore 0 cause))) r' ∧
        Cursor.back r'.pos r' = (.error (.parse cause), r') ∧ r'.windowStart = 1 := by
  intro G source m
  have hr : Reader.Reachable source ⟨1, some 1⟩ tripReader := .start rfl
  have hm : G.Yields .boolean m (.error (.parse ⟨"expected `true` or `false`", 0⟩)) m := ⟨1, rfl⟩
  obtain ⟨-, -, hreader⟩ := value_parsers_all_or_nothing.1 G .boolean
  obtain ⟨hall, m₁, hstep, hcomes⟩ := hreader hr
  obtain rfl : m₁ = m := ArrayCursor.eq_of_toList_eq hstep.toList_eq hstep.pos_eq
  have hrun : ∃ e r', G.Yields .boolean tripReader (.error (.stream e)) r' ∧
      ¬ Reader.Unread e ∧ r'.windowStart = 1 := ⟨_, _, ⟨1, rfl⟩, by rintro ⟨_, _, ⟨⟩⟩, rfl⟩
  obtain ⟨e, r₁, hfatal, hnot, hwindow⟩ := hrun
  refine ⟨hr, hall, hm, ?_⟩
  obtain ⟨hyields, -⟩ | ⟨hyields, he⟩ | ⟨-, hyields, -, hback⟩ := hcomes hm
  · cases (hfatal.unique hyields).1
  · cases (hfatal.unique hyields).1
    exact absurd he hnot
  · obtain ⟨-, rfl⟩ := hfatal.unique hyields
    exact ⟨_, r₁, hyields, hback, hwindow⟩

end Backtrack
