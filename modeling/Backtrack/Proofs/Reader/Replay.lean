import Mathlib.Data.List.OfFn
import Backtrack.Proofs.Action.Inversion
import Backtrack.Proofs.Backend.Refinement
import Backtrack.Proofs.Reader.Visited

/-!
# Proofs/Reader/Replay — doing again what was done, on a reader that has gone further

    r ───────── a ─────────▸ result, r'        loads, forgets, …
                              ⋮ goes on
    R at r.pos ─── a ───▸ result, R at r'.pos        moves the cursor, and that is all

Whatever a reader has loaded on the way from `r` to `r'`, a reader `R` further on has loaded too
(`Precedes`).  So an action that came from `r` to `r'` finds every byte it needs in the window of
`R`, as long as `R` has not forgotten `r.pos`: an action that leaves stepping back to attempts never
goes below its start.  That is handed on by both ways to go on, and by a return to the start.
-/

namespace Backtrack

namespace Reader

variable {source : Source} {config : ReaderConfig} {r r' r₁ r₂ R : Reader} {N : Type → Type}
  {α β : Type}

/-! ## A reader further on -/

/-- **All that `r` has loaded, `R` has loaded too**, and if `r` knows the end, so does `R`. -/
structure Precedes (source : Source) (config : ReaderConfig) (r R : Reader) : Prop where
  earlier : Invariant source config r
  later : Invariant source config R
  end_le : r.loadedEnd ≤ R.loadedEnd
  ended : r.exhausted = true → R.exhausted = true

namespace Precedes

theorem refl (h : Invariant source config r) : Precedes source config r r :=
  ⟨h, h, Nat.le_refl _, id⟩

theorem trans (h : Precedes source config r r₁) (h' : Precedes source config r₁ R) :
    Precedes source config r R :=
  ⟨h.earlier, h'.later, Nat.le_trans h.end_le h'.end_le, h'.ended ∘ h.ended⟩

/-- Where the earlier reader stands, the later one has been. -/
theorem visited (h : Precedes source config r R) : Visited source config r.pos R :=
  { h.later with
    le_end := Nat.le_trans h.earlier.pos_le_end h.end_le
    lt_end := fun hopen => by
      have hopen' : r.exhausted = false := by
        rw [← Bool.not_eq_true]
        exact fun hended => nomatch hopen.symm.trans (h.ended hended)
      exact Nat.lt_of_lt_of_le (h.earlier.ahead hopen') h.end_le }

/-- The later reader may stand where the earlier one does, unless it has forgotten the place. -/
theorem movedTo (h : Precedes source config r R) (hbase : R.base ≤ r.pos) :
    Invariant source config { R with pos := r.pos } :=
  (h.visited.movedTo hbase (Nat.le_refl _)).toInvariant

/-- What is loaded has nothing to do with where a reader stands. -/
theorem earlier_at {p : Nat} (h : Precedes source config r R)
    (hp : Invariant source config { r with pos := p }) :
    Precedes source config { r with pos := p } R := ⟨hp, h.later, h.end_le, h.ended⟩

theorem later_at {p : Nat} (h : Precedes source config r R)
    (hp : Invariant source config { R with pos := p }) :
    Precedes source config r { R with pos := p } := ⟨h.earlier, hp, h.end_le, h.ended⟩

/-- A return to where the earlier reader stands that works out shows that the place is kept, and
leaves all but the position alone. -/
theorem rewound (h : Precedes source config r R) {R' : Reader}
    (hrewind : Cursor.rewind r.pos R = (.ok (), R')) :
    R.base ≤ r.pos ∧ R' = { R with pos := r.pos } := by
  have hkept : R.base ≤ r.pos := by
    refine Nat.le_of_not_lt fun hforgot => ?_
    obtain ⟨cause, -, hrefused⟩ := h.later.rewind_refused hforgot
    exact nomatch hrewind.symm.trans hrefused
  exact ⟨hkept, congrArg Prod.snd (hrewind.symm.trans (h.visited.rewind_eq hkept))⟩

theorem next (h : Invariant source config r) : Precedes source config r r.next.2 := by
  have hinv := h.next
  have htaken := taken_next r
  generalize r.next = out at htaken hinv
  cases htaken with
  | ended => exact refl h
  | kept => exact ⟨h, hinv, Nat.le_refl _, id⟩
  | failed => exact ⟨h, hinv, Nat.le_refl _, id⟩
  | @refilled b bytes src' hcur hlast hopen hfetch =>
    have hlt : r.pos < r.loadedEnd := h.pos_lt_end hcur
    refine ⟨h, hinv, ?_, fun hended => nomatch hopen.symm.trans hended⟩
    rw [loadedEnd_trim_extended (r := { r with pos := r.pos + 1 }) hlt]
    exact Nat.le_add_right _ _

/-- **A byte that was taken is taken again**, and only the cursor moves. -/
theorem next_again (h : Precedes source config r' R) (hr : Invariant source config r) {b : UInt8}
    (hcur : r.current? = some b) (hpos : r'.pos = r.pos + 1) (hbase : R.base ≤ r.pos) :
    Cursor.next { R with pos := r.pos } = (.ok b, { R with pos := r'.pos }) := by
  have hmoved := h.visited.movedTo hbase (Nat.le_of_lt (hpos ▸ Nat.lt_succ_self r.pos))
  obtain ⟨b', hget, hnext⟩ := hmoved.next_eq (hpos ▸ Nat.lt_succ_self r.pos)
  rw [hr.current?_eq_getElem?] at hcur
  obtain rfl : b = b' := Option.some.inj (hcur.symm.trans hget)
  rw [hnext, hpos]

end Precedes

/-! ## Actions that can be done again -/

/-- **A run of `a` from `r` to `r'` that can be done again** on every reader further on than `r'`,
if it has not forgotten the start. -/
structure Replayable (source : Source) (config : ReaderConfig) (a : Action Reader α) (r : Reader)
    (x : Except Failure α) (r' : Reader) : Prop where
  precedes : Precedes source config r r'
  pos_le : r.pos ≤ r'.pos
  again : ∀ {R}, Precedes source config r' R → R.base ≤ r.pos →
    a { R with pos := r.pos } = some (x, { R with pos := r'.pos })

/-- **Every run of `a` can be done again**, if it does not end fatally. -/
def Replays (source : Source) (config : ReaderConfig) (a : Action Reader α) : Prop :=
  ∀ ⦃r x r'⦄, Invariant source config r → a r = some (x, r') → (∀ e, x ≠ .error (.stream e)) →
    Replayable source config a r x r'

/-- What only looks at the byte under the cursor can be done again. -/
theorem replays_still {y : Reader → Except Failure α}
    (hy : ∀ {r R}, Invariant source config r → Invariant source config R → R.pos = r.pos →
      y R = y r) : Replays source config fun r => some (y r, r) := by
  intro r x r' hr h _
  obtain ⟨rfl, rfl⟩ := Prod.mk.inj (Option.some.inj h)
  refine ⟨.refl hr, Nat.le_refl _, fun {R} hR hbase => ?_⟩
  exact congrArg (fun x => some (x, _)) (hy hr (hR.movedTo hbase) rfl)

theorem replays_pure (v : α) : Replays source config (.pure v) := replays_still fun _ _ _ => rfl

theorem replays_fail (f : Failure) : Replays source config (.fail f : Action Reader α) :=
  replays_still fun _ _ _ => rfl

theorem replays_spent : Replays source config (.spent : Action Reader α) := nofun

theorem replays_askPos : Replays source config (.ask Cursor.pos) :=
  replays_still fun _ _ hpos => congrArg Except.ok hpos

theorem replays_askAtEnd : Replays source config (.ask Cursor.atEnd) := by
  refine replays_still fun hr hR hpos => congrArg Except.ok ?_
  rw [Bool.eq_iff_iff, hr.atEnd_iff_getElem?, hR.atEnd_iff_getElem?, hpos]

theorem replays_error (message : String) :
    Replays source config (.error message : Action Reader α) :=
  replays_still fun _ _ hpos => congrArg (fun p => Except.error (Failure.parse ⟨message, p⟩)) hpos

theorem replays_peek : Replays source config (.ofOp Cursor.peek) := by
  refine replays_still (y := peek) fun hr hR hpos => ?_
  rw [hr.peek_eq_peekAt, hR.peek_eq_peekAt, hpos]

theorem replays_next : Replays source config (.ofOp Cursor.next) := by
  intro r x r' hr h hx
  have hout : r.next = (x, r') := Option.some.inj h
  have hprecedes := Precedes.next hr
  have htaken := taken_next r
  rw [hout] at htaken hprecedes
  cases htaken with
  | ended hcur =>
    refine ⟨hprecedes, Nat.le_refl _, fun {R} hR hbase => congrArg some ?_⟩
    have hnone : ({ R with pos := r.pos } : Reader).current? = none := by
      rw [(hR.movedTo hbase).current?_eq_getElem?, ← hr.current?_eq_getElem?, hcur]
    change Reader.next _ = _
    rw [Reader.next, hnone]
  | kept hcur =>
    refine ⟨hprecedes, Nat.le_succ _, fun {R} hR hbase => congrArg some ?_⟩
    exact hR.next_again hr hcur rfl hbase
  | @refilled b bytes src' hcur =>
    have hpos := pos_trim (({ r with pos := r.pos + 1 } : Reader).extended src' bytes)
    refine ⟨hprecedes, hpos ▸ Nat.le_succ _, fun {R} hR hbase => congrArg some ?_⟩
    exact hR.next_again hr hcur hpos hbase
  | failed => exact absurd rfl (hx _)

/-! ## Going on, and going back -/

namespace Replayable

variable {a : Action Reader α} {b c : Action Reader β} {y : Except Failure α}
  {x : Except Failure β}

/-- **One after the other**: what comes second is done again from where the first ends. -/
theorem andThen (ha : Replayable source config a r y r₁) (hb : Replayable source config b r₁ x r')
    (hc : ∀ {s s₁}, a s = some (y, s₁) → c s = b s₁) : Replayable source config c r x r' where
  precedes := ha.precedes.trans hb.precedes
  pos_le := Nat.le_trans ha.pos_le hb.pos_le
  again hR hbase := by
    rw [hc (ha.again (hb.precedes.trans hR) hbase)]
    exact hb.again hR (Nat.le_trans hbase ha.pos_le)

/-- The same run with another result. -/
theorem congr (ha : Replayable source config a r y r')
    (hc : ∀ {s s'}, a s = some (y, s') → c s = some (x, s')) :
    Replayable source config c r x r' where
  precedes := ha.precedes
  pos_le := ha.pos_le
  again hR hbase := hc (ha.again hR hbase)

/-- **Done and undone**: if the start could be returned to, it can be again. -/
theorem undone (ha : Replayable source config a r y r₁)
    (hrewind : Cursor.rewind r.pos r₁ = (.ok (), r₂))
    (hc : ∀ {s s₁ s₂}, Cursor.pos s = r.pos → a s = some (y, s₁) →
      Cursor.rewind (Cursor.pos s) s₁ = (.ok (), s₂) → c s = some (x, s₂)) :
    Replayable source config c r x r₂ := by
  obtain ⟨hkept, rfl⟩ := ha.precedes.rewound hrewind
  refine ⟨ha.precedes.later_at (ha.precedes.movedTo hkept), Nat.le_refl _, fun {R} hR hbase => ?_⟩
  have hR₁ : Precedes source config r₁ R := hR.earlier_at (p := r₁.pos) ha.precedes.later
  have hthere := hR₁.movedTo (Nat.le_trans hbase ha.pos_le)
  have hreturn := ((ha.precedes.trans hR₁).later_at hthere).visited.rewind_eq hbase
  exact hc rfl (ha.again hR₁ hbase) hreturn

end Replayable

namespace Replays

variable {a : Action Reader α}

theorem bind {f : α → Action Reader β} (ha : Replays source config a)
    (hf : ∀ v, Replays source config (f v)) : Replays source config (a.bind f) := by
  intro r x r' hr h hx
  rcases hout : a r with _ | ⟨e | v, r₁⟩
  · rw [Action.bind, hout] at h
    cases h
  · rw [Action.bind, hout] at h
    cases h
    have hfirst := ha hr hout fun e' he => hx e' (congrArg Except.error (Except.error.inj he))
    exact hfirst.congr fun hs => by rw [Action.bind, hs]
  · rw [Action.bind, hout] at h
    have hfirst := ha hr hout (by rintro _ ⟨⟩)
    exact hfirst.andThen (hf v hfirst.precedes.later h hx) fun hs => by rw [Action.bind, hs]

theorem recover {handler : ParseError → Action Reader α} (ha : Replays source config a)
    (hhandler : ∀ e, Replays source config (handler e)) :
    Replays source config (a.recover handler) := by
  intro r x r' hr h hx
  rcases hout : a r with _ | ⟨(e | e) | v, r₁⟩
  · rw [Action.recover, hout] at h
    cases h
  · rw [Action.recover, hout] at h
    have hfirst := ha hr hout (by rintro _ ⟨⟩)
    exact hfirst.andThen (hhandler e hfirst.precedes.later h hx) fun hs => by
      rw [Action.recover, hs]
  · rw [Action.recover, hout] at h
    cases h
    exact absurd rfl (hx e)
  · rw [Action.recover, hout] at h
    cases h
    exact (ha hr hout (by rintro _ ⟨⟩)).congr fun hs => by rw [Action.recover, hs]

theorem map (f : α → β) (ha : Replays source config a) : Replays source config (a.map f) :=
  ha.bind fun _ => replays_pure _

theorem label (message : String) (ha : Replays source config a) :
    Replays source config (a.label message) := ha.recover fun _ => replays_fail _

/-! ## Attempts -/

theorem attempt (ha : Replays source config a) : Replays source config a.attempt := by
  intro r x r' hr h hx
  rcases x with (e | e) | v
  · obtain ⟨e₀, r₁, hout, hrewind, rfl⟩ := Action.attempt_eq_parse_iff.1 h
    exact (ha hr hout nofun).undone hrewind fun hpos hs hback =>
      Action.attempt_eq_parse_iff.2 ⟨e₀, _, hs, hback, congrArg e₀.relocate hpos.symm⟩
  · exact absurd rfl (hx e)
  · exact (ha hr (Action.attempt_eq_ok_iff.1 h) nofun).congr Action.attempt_eq_ok_iff.2

theorem optional (ha : Replays source config a) : Replays source config a.optional :=
  (ha.attempt.map some).recover fun _ => replays_pure none

theorem lookAhead (ha : Replays source config a) : Replays source config a.lookAhead := by
  intro r x r' hr h hx
  rcases x with (e | e) | v
  · exact (ha.attempt hr (Action.lookAhead_eq_parse_iff.1 h) hx).congr
      Action.lookAhead_eq_parse_iff.2
  · exact absurd rfl (hx e)
  · obtain ⟨r₁, hout, hrewind⟩ := Action.lookAhead_eq_ok_iff.1 h
    exact (ha hr hout nofun).undone hrewind fun _ hs hback =>
      Action.lookAhead_eq_ok_iff.2 ⟨_, hs, hback⟩

/-! ## Repetition and choice -/

theorem many (ha : Replays source config a) : ∀ n : Nat, Replays source config (a.many n)
  | 0 => replays_spent
  | n + 1 => by
    refine ha.optional.bind fun found => ?_
    cases found with
    | none => exact replays_pure []
    | some v => exact (ha.many n).map _

theorem manyOne (n : Nat) (ha : Replays source config a) : Replays source config (a.manyOne n) := by
  rw [Action.manyOne_eq]
  refine replays_askPos.bind fun start => (ha.many n).bind fun values => ?_
  cases values with
  | nil => exact replays_fail _
  | cons v vs => exact replays_pure _

end Replays

theorem replays_scan (accepts : UInt8 → Bool) (step : UInt8 → β → β) (init : β) : ∀ n : Nat,
    Replays source config (.scan accepts step init n)
  | 0 => replays_spent
  | n + 1 => by
    refine replays_askAtEnd.bind fun ended => ?_
    cases ended with
    | true => exact replays_pure init
    | false =>
      refine replays_peek.bind fun seen => ?_
      cases accepts seen with
      | true => exact replays_next.bind fun _ => (replays_scan accepts step init n).map _
      | false => exact replays_pure init

theorem replays_alt {as : List (Action Reader α)} (has : ∀ a ∈ as, Replays source config a) :
    Replays source config (.alt as) := by
  rw [Action.alt_eq]
  refine replays_askPos.bind fun start => ?_
  induction as with
  | nil => exact replays_fail _
  | cons a as ih =>
    exact (has a List.mem_cons_self).attempt.recover fun _ =>
      ih fun a' ha' => has a' (List.mem_cons_of_mem _ ha')

/-! ## Parsers -/

theorem replays_denote {rule : ∀ β : Type, N β → Action Reader β}
    (hrule : ∀ β (r : N β), Replays source config (rule β r)) (n : Nat) {p : Parser N UInt8 α}
    (hp : p.Within forwardOnly) : Replays source config (p.denote rule n) := by
  induction p with
  | pure v => exact replays_pure v
  | bind p f ihp ihf => exact (ihp hp.1).bind fun v => ihf v (hp.2 v)
  | call r => exact hrule _ r
  | atEnd => exact replays_askAtEnd
  | position => exact replays_askPos
  | peek => exact replays_peek
  | next => exact replays_next
  | back k => exact absurd hp id
  | error message => exact replays_error message
  | raise f => exact replays_fail f
  | recover p handler ihp ihhandler =>
    exact (ihp hp.1).recover fun e => ihhandler e (hp.2.1 e)
  | label message p ih => exact (ih hp).label message
  | observe p ih => exact absurd hp.1 id
  | attempt p ih => exact (ih hp).attempt
  | optional p ih => exact (ih hp).optional
  | lookAhead p ih => exact (ih hp).lookAhead
  | many p ih => exact (ih hp).many n
  | manyOne p ih => exact (ih hp).manyOne n
  | choice ps ih =>
    rw [Parser.denote, Action.firstOf_eq_alt]
    exact replays_alt (List.forall_mem_ofFn_iff.2 fun i => ih i (hp i))
  | nested ps ih => exact replays_alt (List.forall_mem_ofFn_iff.2 fun i => ih i (hp i))
  | scan accepts step init => exact replays_scan accepts step init n

theorem replays_unfold {G : Grammar N UInt8} (hG : G.Within forwardOnly) (n : Nat) :
    ∀ β (r : N β), Replays source config (G.unfold n β r) := by
  induction n with
  | zero => exact fun _ _ => replays_spent
  | succ n ih => exact fun _ r => replays_denote ih n (hG r)

/-- **Every parser that leaves stepping back to attempts can be run again**, if it does not end
fatally. -/
theorem replays_run {G : Grammar N UInt8} (hG : G.Within forwardOnly) (n : Nat)
    {p : Parser N UInt8 α} (hp : p.Within forwardOnly) : Replays source config (G.run n p) :=
  replays_denote (replays_unfold hG n) n hp

end Reader

end Backtrack
