import Backtrack.Proofs.Backend.Scan
import Backtrack.Text.Literal

/-!
# Proofs/Text/Matching — as far as a text agrees with what is ahead

    text    =   l e t s              ahead   =   l e t t e r …
    literal ──▸ mismatch             in front of the second t: three bytes are gone

A text is matched byte by byte of its UTF-8 form.  Each byte is looked at before it is taken, so
matching goes through the longest common beginning of the text and what is ahead, and no further.
If that is all of the text it has matched; if not, it fails where it stands, and whether another
byte comes next or none makes no difference.
-/

namespace Backtrack

variable {N : Type → Type} {σ τ : Type}

/-! ## Common beginnings -/

/-- Two lists agree up to some point, and there one has ended or their symbols differ. -/
theorem exists_common [DecidableEq τ] (xs ys : List τ) : ∃ common rest after,
    xs = common ++ rest ∧ ys = common ++ after ∧
      ∀ x ∈ rest.head?, ∀ y ∈ after.head?, y ≠ x := by
  induction xs generalizing ys with
  | nil => exact ⟨[], [], ys, rfl, rfl, nofun⟩
  | cons x xs ih =>
    rcases ys with _ | ⟨y, ys⟩
    · exact ⟨[], x :: xs, [], rfl, rfl, fun _ _ => nofun⟩
    · by_cases hxy : y = x
      · obtain ⟨common, rest, after, rfl, rfl, hdiffer⟩ := ih ys
        exact ⟨x :: common, rest, after, rfl, congrArg (· :: _) hxy, hdiffer⟩
      · refine ⟨[], x :: xs, y :: ys, rfl, rfl, fun x' hx' y' hy' => ?_⟩
        cases hx'
        cases hy'
        exact hxy

/-- …which is the longest beginning they share. -/
theorem longestBeginning_common (common : List τ) {rest after : List τ}
    (hdiffer : ∀ x ∈ rest.head?, ∀ y ∈ after.head?, y ≠ x) :
    LongestBeginning (· <+: common ++ rest) (common ++ after) common := by
  refine longestBeginning_of_stuck (fun hbegins h => hbegins.trans h)
    (List.prefix_append common rest) fun y hy hmore => ?_
  rw [List.prefix_append_right_inj] at hmore
  obtain ⟨rest', rfl⟩ := hmore
  exact hdiffer y rfl y hy rfl

theorem prefix_iff_eq_nil (common : List τ) {rest after : List τ}
    (hdiffer : ∀ x ∈ rest.head?, ∀ y ∈ after.head?, y ≠ x) :
    common ++ rest <+: common ++ after ↔ rest = [] := by
  rw [List.prefix_append_right_inj]
  refine ⟨fun hbegins => ?_, fun hrest => hrest ▸ List.nil_prefix⟩
  rcases rest with _ | ⟨x, rest⟩
  · rfl
  · obtain ⟨after', rfl⟩ := hbegins
    exact absurd rfl (hdiffer x rfl x rfl)

/-! ## The bytes of a text -/

/-- They are the text as it is stored. -/
theorem Byte.toByteArray_ofText (text : String) : (ofText text).toByteArray = text.toByteArray := by
  rw [ofText, ← String.utf8Encode_toList]
  rfl

theorem Byte.length_ofText (text : String) : (ofText text).length = text.utf8ByteSize := by
  rw [← String.size_toByteArray, ← toByteArray_ofText, List.size_toByteArray]

/-! ## Matching -/

/-- A symbol is looked at, and taken if it is accepted. -/
theorem Grammar.run_expect [Cursor σ τ] (G : Grammar N τ) (n : Nat) (accepts : τ → Bool)
    (message : String) : (G.run n (.expect accepts message) : Action σ Unit)
      = (((Action.ofOp Cursor.peek).map accepts).recover fun _ => .pure false).bind fun accepted =>
          if accepted then (Action.ofOp Cursor.next).map fun _ => () else .error message := by
  refine congrArg (Action.bind _) (funext fun accepted => ?_)
  cases accepted <;> rfl

namespace Cursor.Feeds

section Expect

variable [Cursor σ τ] (G : Grammar N τ) (n : Nat) {valid : σ → Prop} {ahead : σ → List τ}
  {breaks : σ → StreamError → σ → Prop} (feeds : Feeds valid ahead breaks) {s : σ} {x : τ}
  {more : List τ} {accepts : τ → Bool} (message : String)
include feeds

/-- Expecting a symbol fails where it is, whether another one comes next or none. -/
theorem expect_refused (hs : valid s) (hstops : ∀ x ∈ (ahead s).head?, accepts x = false) :
    G.run n (.expect accepts message) s = some (.error (.parse ⟨message, pos s⟩), s) := by
  rw [G.run_expect, Action.bind, Action.recover, Action.map, Action.bind, Action.ofOp]
  obtain ⟨-, hpeek⟩ | ⟨x, -, hpeek, hx⟩ := feeds.look_stopped hs hstops
  · rw [hpeek]
    rfl
  · simp only [hpeek, Action.pure, hx]
    rfl

theorem expect_taken (hs : valid s) (hahead : ahead s = x :: more) (hx : accepts x = true) :
    G.run n (.expect accepts message) s = ((Action.ofOp next).map fun _ => ()) s := by
  rw [G.run_expect, Action.bind, Action.recover, Action.map, Action.bind, Action.ofOp,
    feeds.peek_cons hs hahead]
  simp only [Action.pure, hx, if_true]

end Expect

variable [Cursor σ UInt8] {valid : σ → Prop} {ahead : σ → List UInt8}
  {breaks : σ → StreamError → σ → Prop} (feeds : Feeds valid ahead breaks) (G : Grammar N UInt8)
  {s : σ} {common rest after : List UInt8} (message : String)
include feeds

/-- Bytes that are ahead are taken one by one, and then the others are expected; or the cursor
breaks off at one of them. -/
theorem expectAll_goes_through (rest : List UInt8) (n : Nat) (hs : valid s)
    (hahead : ahead s = common ++ after) :
    (∃ s', Further ahead common.length s s' ∧ valid s' ∧
        G.run n (.expectAll message (common ++ rest)) s = G.run n (.expectAll message rest) s') ∨
      ∃ k e s', k < common.length ∧ BrokenOff ahead breaks k s e s' ∧
        G.run n (.expectAll message (common ++ rest)) s = some (.error (.stream e), s') := by
  have hthrough := feeds.goes_through (fun text => G.run n (.expectAll message (text ++ rest)))
    (fun _ u => u) (fun {b bs s} _ hs hahead => ?_) hs hahead
  · refine hthrough.imp_left fun ⟨s', hfurther, hs', hrun⟩ => ⟨s', hfurther, hs', hrun.trans ?_⟩
    exact congrFun (Action.bind_pure _) s'
  · have htaken : G.run n (.expect (· == b) message) s = ((Action.ofOp next).map fun _ => ()) s :=
      feeds.expect_taken G n message hs hahead (beq_self_eq_true b)
    calc G.run n (.expectAll message (b :: bs ++ rest)) s
      _ = ((G.run n (.expect (· == b) message)).bind fun _ =>
            G.run n (.expectAll message (bs ++ rest))) s := rfl
      _ = (((Action.ofOp next).map fun _ => ()).bind fun _ =>
            G.run n (.expectAll message (bs ++ rest))) s := by rw [Action.bind, htaken, Action.bind]
      _ = ((Action.ofOp next).bind fun _ =>
            (G.run n (.expectAll message (bs ++ rest))).map id) s := by
        rw [Action.map, Action.bind_assoc]
        exact congrArg (fun q => Action.bind _ q s) (funext fun _ => (Action.bind_pure _).symm)

/-- **Matching goes through what the text and the input share**, and has matched if that is all of
the text. -/
theorem literal_goes_through {text : String} (htext : Byte.ofText text = common ++ rest)
    (hdiffer : ∀ x ∈ rest.head?, ∀ y ∈ after.head?, y ≠ x) (hs : valid s)
    (hahead : ahead s = common ++ after) :
    (∃ s', Further ahead common.length s s' ∧ G.Yields (.literal text) s
        (if rest = [] then .ok text
          else .error (.parse ⟨s!"could not match `{text}`", pos s'⟩)) s') ∨
      ∃ k e s', k < common.length ∧ BrokenOff ahead breaks k s e s' ∧
        G.Yields (.literal text) s (.error (.stream e)) s' := by
  have hthrough := feeds.expectAll_goes_through G s!"could not match `{text}`" rest 0 hs hahead
  rw [← htext] at hthrough
  refine hthrough.imp ?_ ?_
  · rintro ⟨s', hfurther, hs', hrun⟩
    refine ⟨s', hfurther, ?_⟩
    rcases rest with _ | ⟨b, rest⟩
    · exact .bind ⟨0, hrun⟩ (Grammar.yields_pure text)
    · have hstops : ∀ y ∈ (ahead s').head?, (y == b) = false := by
        rw [hfurther.ahead_eq_after hahead]
        exact fun y hy => beq_false_of_ne (hdiffer b rfl y hy)
      refine .bind_error ⟨0, hrun.trans ?_⟩ _
      have hrefused := feeds.expect_refused G 0 s!"could not match `{text}`" hs' hstops
      exact Action.bind_eq_error_iff.2 (.inl hrefused)
  · rintro ⟨k, e, s', hk, hbroken, hrun⟩
    exact ⟨k, e, s', hk, hbroken, .bind_error ⟨0, hrun⟩ _⟩

end Cursor.Feeds

/-- **A text matched up to `common`**: all of it or not, the cursor is behind the common bytes. -/
structure MatchesUpTo [Cursor σ UInt8] (G : Grammar N UInt8) (ahead : σ → List UInt8)
    (text : String) (common : List UInt8) (s s' : σ) : Prop where
  further : Cursor.Further ahead common.length s s'
  yields : G.Yields (.literal text) s
    (if Byte.ofText text <+: ahead s then .ok text
      else .error (.parse ⟨s!"could not match `{text}`", Cursor.pos s + common.length⟩)) s'
  length_eq : Byte.ofText text <+: ahead s → common.length = text.utf8ByteSize

namespace Cursor.Feeds

variable [Cursor σ UInt8] {valid : σ → Prop} {ahead : σ → List UInt8} {s : σ}

/-- **Matching takes the longest common beginning**, or breaks off inside it. -/
theorem matches_longest_common {breaks : σ → StreamError → σ → Prop}
    (feeds : Feeds valid ahead breaks) (G : Grammar N UInt8) (text : String) (hs : valid s) :
    ∃ common, LongestBeginning (· <+: Byte.ofText text) (ahead s) common ∧
      ((∃ s', MatchesUpTo G ahead text common s s') ∨
        ∃ e s', BreaksInside G (.literal text) ahead breaks common s e s') := by
  obtain ⟨common, rest, after, htext, hahead, hdiffer⟩ :=
    exists_common (Byte.ofText text) (ahead s)
  have hlongest := longestBeginning_common common hdiffer
  have hbegins := prefix_iff_eq_nil common hdiffer
  rw [← htext, ← hahead] at hlongest hbegins
  refine ⟨common, hlongest, ?_⟩
  obtain ⟨s', hfurther, hyields⟩ | ⟨k, e, s', hk, hbroken, hyields⟩ :=
    feeds.literal_goes_through G htext hdiffer hs hahead
  · refine .inl ⟨s', hfurther, ?_, fun h => ?_⟩
    · rw [hfurther.pos_eq] at hyields
      simpa only [hbegins] using hyields
    · rw [← Byte.length_ofText, htext, hbegins.1 h, List.append_nil]
  · exact .inr ⟨e, s', hbroken.breaksInside hlongest.begins hk hyields⟩

/-- Where a cursor never breaks off, matching comes to an end. -/
theorem matches_up_to (feeds : Feeds valid ahead NeverBreaks) (G : Grammar N UInt8)
    (text : String) (hs : valid s) :
    ∃ common s', LongestBeginning (· <+: Byte.ofText text) (ahead s) common ∧
      MatchesUpTo G ahead text common s s' := by
  obtain ⟨common, hlongest, ⟨s', hmatches⟩ | ⟨e, s', hbreaks⟩⟩ :=
    feeds.matches_longest_common G text hs
  · exact ⟨common, s', hlongest, hmatches⟩
  · exact absurd hbreaks not_breaksInside

end Cursor.Feeds

/-- **An attempt to match** fails, where the text does not come next, about the start and there. -/
theorem ArrayCursor.yields_attempt_literal_error_iff {G : Grammar N UInt8} {text : String}
    {m m' : ArrayCursor UInt8} {f : Failure} :
    G.Yields (.attempt (.literal text)) m (.error f) m' ↔
      ¬ Byte.ofText text <+: m.remaining ∧
        f = .parse ⟨s!"could not match `{text}`", m.pos⟩ ∧ m' = m := by
  obtain ⟨common, m₁, -, hmatches⟩ := ArrayCursor.feeds.matches_up_to G text (s := m) trivial
  have hyields := hmatches.yields
  by_cases hbegins : Byte.ofText text <+: m.remaining
  · rw [if_pos hbegins] at hyields
    refine ⟨fun h => ?_, fun h => absurd hbegins h.1⟩
    cases (h.unique (Grammar.yields_attempt_ok_iff.2 hyields)).1
  · rw [if_neg hbegins] at hyields
    have hattempt := yields_attempt_of_parse hyields
    constructor
    · intro h
      obtain ⟨hf, rfl⟩ := h.unique hattempt
      exact ⟨hbegins, Except.error.inj hf, rfl⟩
    · rintro ⟨-, rfl, rfl⟩
      exact hattempt

/-- **A literal consumes the longest common beginning** of its bytes and what is left.  On an array
cursor and on a zipper, it has the text if all its bytes come next, and else it fails behind the
bytes that did match, about that place; on a reader, in any state that calls lead to, it does the
same or fails inside the common bytes with the failure of the refill.  An attempt to match, on an
array cursor, fails about the start and leaves the cursor there. -/
theorem literal_consumes_common_bytes :
    (∀ {N : Type → Type} (G : Grammar N UInt8) (text : String),
      (∀ m : ArrayCursor UInt8, ∃ common m',
        LongestBeginning (· <+: Byte.ofText text) m.remaining common ∧
          MatchesUpTo G ArrayCursor.remaining text common m m') ∧
      ∀ l : ListCursor UInt8, ∃ common l',
        LongestBeginning (· <+: Byte.ofText text) l.remaining common ∧
          MatchesUpTo G ListCursor.remaining text common l l') ∧
    (∀ {N : Type → Type} (G : Grammar N UInt8) (text : String) {source : Source}
      {config : ReaderConfig} {r : Reader}, Reader.Reachable source config r →
      ∃ common, LongestBeginning (· <+: Byte.ofText text) r.remaining common ∧
        ((∃ r', MatchesUpTo G Reader.remaining text common r r') ∨ ∃ e r',
          BreaksInside G (.literal text) Reader.remaining Reader.RefillFails common r e r')) ∧
    ∀ {N : Type → Type} (G : Grammar N UInt8) (text : String) (m m' : ArrayCursor UInt8)
      (f : Failure), G.Yields (.attempt (.literal text)) m (.error f) m' ↔
        ¬ Byte.ofText text <+: m.remaining ∧
          f = .parse ⟨s!"could not match `{text}`", m.pos⟩ ∧ m' = m := by
  refine ⟨fun G text => ⟨fun m => ?_, fun l => ?_⟩, fun G text source config r hr => ?_, ?_⟩
  · exact ArrayCursor.feeds.matches_up_to G text trivial
  · exact ListCursor.feeds.matches_up_to G text trivial
  · exact (Reader.feeds source config).matches_longest_common G text hr
  · exact fun G text m m' f => ArrayCursor.yields_attempt_literal_error_iff

/-- One byte of the text is left, and then the input ends: the byte is gone, and the failure is
about the end. -/
theorem trimmedReader_consumes_common_byte :
    let G : Grammar (fun _ => Empty) UInt8 := ⟨fun r => nomatch r⟩
    let r := Reader.trimmedReader
    Reader.Reachable Reader.stutteringSource ⟨2, some 1⟩ r ∧ r.pos = 3 ∧
      Byte.ofText "d\u00e9" = [100, 195, 169] ∧ r.remaining = [100] ∧
      ∃ common r', LongestBeginning (· <+: Byte.ofText "d\u00e9") r.remaining common ∧
        MatchesUpTo G Reader.remaining "d\u00e9" common r r' ∧ r'.pos = 4 := by
  intro G r
  have hr := Reader.reachable_trimmedReader
  have hfails : ∃ e r', G.Yields (.literal "d\u00e9") r (.error (.parse e)) r' ∧ r'.pos = 4 :=
    ⟨_, _, ⟨0, rfl⟩, rfl⟩
  obtain ⟨e, r', hyields, hpos⟩ := hfails
  obtain ⟨common, hlongest, ⟨r₁, hmatches⟩ | ⟨e₁, r₁, hbreaks⟩⟩ :=
    literal_consumes_common_bytes.2.1 G "d\u00e9" hr
  · obtain ⟨-, rfl⟩ := hmatches.yields.unique hyields
    exact ⟨hr, rfl, by decide, rfl, common, r₁, hlongest, hmatches, hpos⟩
  · cases (hbreaks.yields.unique hyields).1

end Backtrack
