import Backtrack.Proofs.Text.Integer

/-!
# Proofs/Text/Number — a number is all of its literal, and the literal is what was read

    before ▸ sign, digits, fraction, after   ──number──▸   before, sign, digits, fraction ▸ after

The parser of numbers puts the literal together from the pieces it took and hands it to a
conversion.  With any conversion in that place (`Parser.numberBy`), the literal handed over is the
very text that was passed (`HandsOver`), and that is the longest of its language.  The conversion of
decimals refuses no such text (`Decimal.exists_ofLiteral?`), so a number that begins is read.

Integers and numbers begin alike, with a sign or none and a row of digits (`yields_signed`); they
differ in the fraction.
-/

namespace Backtrack

variable {N : Type → Type} {α : Type} {G : Grammar N UInt8} {negative : Bool}
  {input whole rest after : List UInt8} {fraction : Option (List UInt8)}

open ArrayCursor (between)
open Literal (signText fractionText natural)

/-! ## The literal and its value -/

namespace Decimal

theorem isDigits_map_toChar {ds : List UInt8} (hds : ds ∈ Literal.digits) :
    isDigits (ds.map Byte.toChar) = true := by
  obtain ⟨hne, hall⟩ := Literal.mem_digits_iff.1 hds
  simpa [isDigits, Byte.isDigit_toChar, hne] using hall

/-- **A literal without its sign**: its fraction moves the point, and counts as digits. -/
theorem ofUnsigned?_map_toChar (negative : Bool) (hwhole : whole ∈ Literal.digits)
    (hfraction : ∀ ds ∈ fraction, ds ∈ Literal.digits) :
    ofUnsigned? negative ((whole ++ fractionText fraction).map Byte.toChar)
      = some ⟨negative, natural (whole ++ fraction.getD []), (fraction.getD []).length⟩ := by
  have hdigits := isDigits_map_toChar hwhole
  have hall : ∀ c ∈ whole.map Byte.toChar, c.isDigit = true := by
    simpa [isDigits] using (Bool.and_eq_true_iff.1 hdigits).2
  rw [ofUnsigned?, List.map_append, List.takeWhile_append_of_pos hall,
    List.dropWhile_append_of_pos hall]
  match fraction with
  | none => simp [fractionText, hdigits, Literal.ofDigits_map_toChar]
  | some ds =>
    have hpoint : Byte.toChar Byte.point = '.' := rfl
    have hds := isDigits_map_toChar (hfraction ds rfl)
    simp [fractionText, hpoint, hdigits, hds, ← Literal.ofDigits_map_toChar]

theorem ofLiteral?_ofList {cs : List Char} (h : cs.head? ≠ some '-') :
    ofLiteral? (String.ofList cs) = ofUnsigned? false cs := by
  rw [ofLiteral?, String.toList_ofList]
  split
  · exact absurd rfl h
  · rfl

/-- **A literal is worth the digits it is made of.** -/
theorem ofLiteral?_toText (negative : Bool) (hwhole : whole ∈ Literal.digits)
    (hfraction : ∀ ds ∈ fraction, ds ∈ Literal.digits) :
    ofLiteral? (Byte.toText (signText negative ++ whole ++ fractionText fraction))
      = some ⟨negative, natural (whole ++ fraction.getD []), (fraction.getD []).length⟩ := by
  rw [← ofUnsigned?_map_toChar negative hwhole hfraction, List.append_assoc]
  rcases negative with _ | _
  · refine ofLiteral?_ofList ?_
    obtain ⟨hne, hall⟩ := Literal.mem_digits_iff.1 hwhole
    obtain ⟨b, ds, rfl⟩ := List.exists_cons_of_ne_nil hne
    have hdigit := (Byte.isDigit_toChar b).trans (hall b List.mem_cons_self)
    intro hminus
    rw [Option.some.inj hminus] at hdigit
    exact absurd hdigit (by decide)
  · rw [ofLiteral?, Byte.toText, String.toList_ofList]
    rfl

/-- **The conversion refuses no literal.** -/
theorem exists_ofLiteral? {text : List UInt8} (h : text ∈ Literal.number) :
    ∃ d, ofLiteral? (Byte.toText text) = some d := by
  obtain ⟨_, hinteger, fraction, hfraction, rfl⟩ := Literal.mem_number_iff.1 h
  obtain ⟨negative, whole, hwhole, rfl⟩ := Literal.mem_integer_iff.1 hinteger
  exact ⟨_, ofLiteral?_toText negative hwhole hfraction⟩

end Decimal

theorem Parser.numberText_eq (negative : Bool) (whole : List UInt8)
    (fraction : Option (List UInt8)) : Parser.numberText negative whole fraction
      = Byte.toText (signText negative ++ whole ++ fractionText fraction) := by
  rcases fraction with _ | _ <;> rfl

/-! ## The parser with any conversion -/

namespace Parser

/-- Converts a literal, and complains about it where that fails. -/
def converted (convert : String → Option α) (literal : String) : Parser N UInt8 α :=
  match convert literal with
  | none => error s!"malformed number `{literal}`"
  | some v => pure v

/-- **A number with a conversion of one's own** in place of that to the nearest double. -/
def numberBy (convert : String → Option α) : Parser N UInt8 α :=
  attempt <| bind sign fun negative => bind digits fun whole =>
    bind (optional Parser.fraction) fun rest => converted convert (numberText negative whole rest)

theorem number_eq_numberBy : (number : Parser N UInt8 Binary64)
    = numberBy fun text => (Decimal.ofLiteral? text).map Decimal.toBinary64 := by
  refine congrArg attempt (congrArg (bind sign) (funext fun negative => ?_))
  refine congrArg (bind digits) (funext fun whole => ?_)
  refine congrArg (bind (optional Parser.fraction)) (funext fun rest => ?_)
  dsimp only [converted]
  rcases Decimal.ofLiteral? (numberText negative whole rest) with _ | _ <;> rfl

end Parser

section Converted

variable {convert : String → Option α} {literal : String}

theorem yields_converted_some {v : α} (h : convert literal = some v) (m : ArrayCursor UInt8) :
    G.Yields (.converted convert literal) m (.ok v) m := by
  rw [Parser.converted, h]
  exact Grammar.yields_pure v

theorem yields_converted_none (h : convert literal = none) (m : ArrayCursor UInt8) :
    G.Yields (.converted convert literal) m
      (.error (.parse ⟨s!"malformed number `{literal}`", m.pos⟩)) m := by
  rw [Parser.converted, h]
  exact Grammar.yields_error _

end Converted

/-- **The text that is handed to the conversion**, whichever that is: its value is that of the
number, which ends behind the text, and a refusal of it is the failure of the number. -/
structure HandsOver (G : Grammar N UInt8) (m : ArrayCursor UInt8) (text : List UInt8) : Prop where
  accepted : ∀ {α : Type} (convert : String → Option α) {v : α},
    convert (Byte.toText text) = some v →
      G.Yields (.numberBy convert) m (.ok v) (m.advance text.length)
  refused : ∀ {α : Type} (convert : String → Option α), convert (Byte.toText text) = none →
    G.Yields (.numberBy convert) m
      (.error (.parse ⟨s!"malformed number `{Byte.toText text}`", m.pos⟩)) m

theorem takes_satisfy_digit : Takes G (.satisfy Byte.isDigit) Byte.isDigit id :=
  takes_test G Byte.isDigit "symbol rejected by predicate"

/-- **A fraction is taken if there is one**; a point without a digit behind it is given back. -/
theorem yields_fraction (h : Literal.FractionAt rest fraction after) (before : List UInt8) :
    G.Yields (.optional .fraction) (between before rest) (.ok fraction)
      (between (before ++ fractionText fraction) after) := by
  obtain hnone | ⟨hds, hafter⟩ := h
  · rw [fractionText, List.append_nil]
    refine ArrayCursor.yields_optional_of_parse ?_
    -- either there is no point, or it has been taken by the time no digit is found
    by_cases hpoint : rest.head? = some Byte.point
    · obtain ⟨tail, rfl⟩ := List.head?_eq_some_iff.1 hpoint
      have htail : ∀ b ∈ tail.head?, Byte.isDigit b = false := by
        intro b hb
        obtain ⟨tail', rfl⟩ := List.head?_eq_some_iff.1 hb
        exact Bool.eq_false_iff.2 fun hdigit => hnone ⟨b, tail', hdigit, rfl⟩
      exact ⟨_, _, (yields_oneOf_taken Byte.point before tail).bind
        (takes_satisfy_digit.yields_manyOne_refused htail _)⟩
    · obtain ⟨e, c, hrefused⟩ := yields_oneOf_refused (G := G) hpoint before
      exact ⟨e, c, hrefused.bind_error _⟩
  · obtain ⟨hne, hall⟩ := Literal.mem_digits_iff.1 hds
    have hdigits := takes_satisfy_digit (G := G).yields_manyOne hne hall hafter
      (before ++ [Byte.point])
    rw [List.map_id, List.append_assoc] at hdigits
    exact Grammar.yields_optional_iff.2 (.inr (.inr ⟨_, rfl,
      (yields_oneOf_taken Byte.point before _).bind hdigits⟩))

section Opening

variable (h : Literal.Opening input negative whole rest) (hwhole : whole ≠ [])
  (hfraction : Literal.FractionAt rest fraction after) (before : List UInt8)
include h hfraction

theorem advance_number : (between before input).advance
    (signText negative ++ whole ++ fractionText fraction).length
      = between (before ++ signText negative ++ whole ++ fractionText fraction) after := by
  rw [h.eq_append, hfraction.eq_append, ← List.append_assoc, ← List.append_assoc,
    ArrayCursor.advance_between, ← List.append_assoc, ← List.append_assoc]

include hwhole

/-- **The literal put together is the text taken**, and what follows goes on after it. -/
theorem yields_literal {f : String → Parser N UInt8 α} {x : Except Failure α}
    {m : ArrayCursor UInt8}
    (hf : G.Yields (f (Byte.toText (signText negative ++ whole ++ fractionText fraction)))
      (between (before ++ signText negative ++ whole ++ fractionText fraction) after) x m) :
    G.Yields (.bind .sign fun negative => .bind .digits fun whole =>
        .bind (.optional .fraction) fun rest => f (Parser.numberText negative whole rest))
      (between before input) x m := by
  refine yields_signed h before takes_satisfy_digit hwhole ?_
  rw [List.map_id]
  refine (yields_fraction hfraction _).bind ?_
  rw [Parser.numberText_eq]
  exact hf

theorem handsOver : HandsOver G (between before input)
    (signText negative ++ whole ++ fractionText fraction) where
  accepted convert v hv := by
    have hconverted := yields_converted_some (G := G) hv
    rw [advance_number h hfraction]
    exact Grammar.yields_attempt_ok_iff.2 (yields_literal h hwhole hfraction before (hconverted _))
  refused convert hnone := by
    have hconverted := yields_converted_none (G := G) hnone
    exact ArrayCursor.yields_attempt_of_parse
      (yields_literal h hwhole hfraction before (hconverted _))

/-- **With a conversion that refuses no literal**, there is a number. -/
theorem exists_yields_numberBy {convert : String → Option α}
    (hconvert : ∀ text ∈ Literal.number, ∃ v, convert (Byte.toText text) = some v) :
    ∃ v m, G.Yields (.numberBy convert) (between before input) (.ok v) m := by
  obtain ⟨v, hv⟩ := hconvert _ (h.longest_number hwhole hfraction).mem
  exact ⟨v, _, (handsOver h hwhole hfraction before).accepted convert hv⟩

/-- **A number is its exact decimal fraction, rounded.** -/
theorem yields_number : G.Yields .number (between before input)
    (.ok (Decimal.toBinary64
      ⟨negative, natural (whole ++ fraction.getD []), (fraction.getD []).length⟩))
    ((between before input).advance
      (signText negative ++ whole ++ fractionText fraction).length) := by
  have hvalue := Decimal.ofLiteral?_toText negative
    (Literal.mem_digits_iff.2 ⟨hwhole, h.whole_digits⟩) hfraction.mem_digits
  rw [Parser.number_eq_numberBy]
  exact (handsOver h hwhole hfraction before).accepted
    (fun text => (Decimal.ofLiteral? text).map Decimal.toBinary64)
    (congrArg (Option.map Decimal.toBinary64) hvalue)

end Opening

/-! ## Numbers and integers -/

/-- **Where an integer is read**, there are digits, and it ends behind them. -/
theorem of_yields_integer (h : Literal.Opening input negative whole rest) {before : List UInt8}
    {z : Int} {m₁ : ArrayCursor UInt8}
    (hinteger : G.Yields .integer (between before input) (.ok z) m₁) :
    whole ≠ [] ∧ m₁ = between (before ++ signText negative ++ whole) rest := by
  have hwhole : whole ≠ [] := by
    rintro rfl
    cases (hinteger.unique (yields_signed_refused h before takes_digit rfl)).1
  refine ⟨hwhole, ?_⟩
  by_cases hfits : Parser.Fits (Literal.signed negative (natural whole))
  · rw [← advance_opening h before]
    exact (hinteger.unique (yields_integer h before hwhole hfits)).2
  · cases (hinteger.unique (yields_integer_misfit h before hwhole hfits)).1

/-- A fraction leads on, and without one all is as it was. -/
theorem between_fraction_eq_iff (hfraction : Literal.FractionAt rest fraction after)
    (before : List UInt8) :
    between (before ++ fractionText fraction) after = between before rest ↔ fraction = none := by
  constructor
  · intro heq
    have hlength := congrArg ArrayCursor.pos heq
    rw [ArrayCursor.pos_between, List.length_append, ArrayCursor.pos_between] at hlength
    rcases fraction with _ | ds
    · rfl
    · exact absurd hlength (by simp [fractionText])
  · rintro rfl
    rw [hfraction.eq_append, fractionText, List.append_nil, List.nil_append]

/-- **A number is read exactly.**  Where no literal begins, nothing is taken.  Where one does, the
longest is taken, and byte for byte handed to the conversion, which has a double for it.  With any
other conversion that refuses no literal, there is no failure either but where none begins.  And
where an integer is read, so is a number, which is longer exactly if a fraction follows. -/
theorem number_reads_longest_literal (G : Grammar N UInt8) (m : ArrayCursor UInt8) :
    ((¬ ∃ text ∈ Literal.integer, text <+: m.remaining) →
      G.Yields .number m (.error (.parse ⟨"no parses succeeded", m.pos⟩)) m) ∧
    ((∃ text ∈ Literal.integer, text <+: m.remaining) →
      ∃ text, Literal.Longest Literal.number m.remaining text ∧
        (m.advance text.length).pos = m.pos + text.length ∧
        Byte.ofText (Byte.toText text) = text ∧ HandsOver G m text ∧
        ∃ d, Decimal.ofLiteral? (Byte.toText text) = some d ∧
          G.Yields .number m (.ok d.toBinary64) (m.advance text.length)) ∧
    (Parser.number : Parser N UInt8 Binary64)
      = .numberBy (fun text => (Decimal.ofLiteral? text).map Decimal.toBinary64) ∧
    (∀ text ∈ Literal.number, ∃ d, Decimal.ofLiteral? (Byte.toText text) = some d) ∧
    (∀ (α : Type) (convert : String → Option α),
      (∀ text ∈ Literal.number, ∃ v, convert (Byte.toText text) = some v) →
      ∀ fault m', G.Yields (.numberBy convert) m (.error fault) m' →
        fault = .parse ⟨"no parses succeeded", m.pos⟩) ∧
    ∀ z m₁, G.Yields .integer m (.ok z) m₁ → ∃ v m₂, G.Yields .number m (.ok v) m₂ ∧
      (m₂ = m₁ ↔ ¬ ∃ b tail, Byte.isDigit b = true ∧ m₁.remaining = Byte.point :: b :: tail) := by
  obtain ⟨before, input, rfl⟩ : ∃ before input, m = between before input :=
    ⟨_, _, m.between_remaining.symm⟩
  simp only [ArrayCursor.remaining_between, ArrayCursor.pos_between]
  obtain ⟨negative, whole, rest, h⟩ := Literal.exists_opening input
  obtain ⟨fraction, after, hfraction⟩ := Literal.exists_fractionAt rest
  rw [h.begins_iff, not_not]
  refine ⟨yields_signed_refused h before takes_satisfy_digit, fun hwhole => ?_,
    Parser.number_eq_numberBy, fun text => Decimal.exists_ofLiteral?,
    fun α convert hconvert fault m' hfault => ?_, fun z m₁ hinteger => ?_⟩
  · have hlongest := h.longest_number hwhole hfraction
    have hvalue := Decimal.ofLiteral?_toText negative
      (Literal.mem_digits_iff.2 ⟨hwhole, h.whole_digits⟩) hfraction.mem_digits
    exact ⟨_, hlongest, ArrayCursor.pos_advance_between before input hlongest.begins,
      Literal.ofText_toText hlongest.mem, handsOver h hwhole hfraction before, _, hvalue,
      yields_number h hwhole hfraction before⟩
  · by_cases hwhole : whole = []
    · cases (hfault.unique (yields_signed_refused h before takes_satisfy_digit hwhole)).1
      rfl
    · obtain ⟨v, m₂, hv⟩ := exists_yields_numberBy (G := G) h hwhole hfraction before hconvert
      cases (hfault.unique hv).1
  · obtain ⟨hwhole, rfl⟩ := of_yields_integer h hinteger
    refine ⟨_, _, yields_number h hwhole hfraction before, ?_⟩
    rw [ArrayCursor.remaining_between, ← hfraction.eq_none_iff, advance_number h hfraction]
    exact between_fraction_eq_iff hfraction _

/-- A sign and a point are no number.  Of `-12.50.7` all up to the second point is one, and it is
that text that a conversion refuses.  Of `7.x` only the digit is one, as an integer and as a
number. -/
theorem number_leaves_points :
    let G : Grammar (fun _ => Empty) UInt8 := ⟨fun r => nomatch r⟩
    let lone := between [55] [Byte.minus, Byte.point]
    let twice := between [55] (Byte.ofText "-12.50" ++ [Byte.point, 55])
    let half := between [] [55, Byte.point, 120]
    G.Yields .number lone (.error (.parse ⟨"no parses succeeded", 1⟩)) lone ∧
      (∀ fault m', G.Yields (.numberBy Decimal.ofLiteral?) lone (.error fault) m' →
        fault = .parse ⟨"no parses succeeded", 1⟩) ∧
      G.Yields .number twice (.ok (Decimal.toBinary64 ⟨true, 1250, 2⟩)) (twice.advance 6) ∧
      G.Yields (.numberBy fun _ => (none : Option Unit)) twice
        (.error (.parse ⟨"malformed number `-12.50`", 1⟩)) twice ∧
      G.Yields .integer half (.ok 7) (half.advance 1) ∧
      ∃ v, G.Yields .number half (.ok v) (half.advance 1) := by
  intro G lone twice half
  have hpoint : ∀ {tail : List UInt8}, ∀ b ∈ (Byte.point :: tail).head?,
      Byte.isDigit b = false := by
    rintro tail _ ⟨⟩
    rfl
  have hlone : Literal.Opening [Byte.minus, Byte.point] true [] [Byte.point] :=
    ⟨rfl, nofun, hpoint, nofun⟩
  have hwhole : [49, 50] ∈ Literal.digits :=
    Literal.mem_digits_iff.2 ⟨List.cons_ne_nil _ _, List.all_eq_true.1 rfl⟩
  have hdigits : [53, 48] ∈ Literal.digits :=
    Literal.mem_digits_iff.2 ⟨List.cons_ne_nil _ _, List.all_eq_true.1 rfl⟩
  have hfraction := Literal.FractionAt.some hdigits (@hpoint [55])
  have hopening := Literal.opening_append true hwhole (@hpoint ([53, 48] ++ [Byte.point, 55]))
  obtain ⟨text, htext, -, -, hhands, d, hd, hyields⟩ := (number_reads_longest_literal G twice).2.1
    (hopening.begins_iff.2 (List.cons_ne_nil _ _))
  obtain rfl := htext.unique (hopening.longest_number (List.cons_ne_nil _ _) hfraction)
  obtain rfl := Option.some.inj (hd.symm.trans rfl)
  have hseven : G.Yields .integer half (.ok 7) (half.advance 1) := ⟨4, rfl⟩
  obtain ⟨v, m₂, hv, hend⟩ := (number_reads_longest_literal G half).2.2.2.2.2 7 _ hseven
  have hnone : ¬ ∃ b tail, Byte.isDigit b = true ∧
      (half.advance 1).remaining = Byte.point :: b :: tail := by
    rintro ⟨b, tail, hb, htail⟩
    obtain ⟨⟩ := htail
    exact absurd hb (by decide)
  refine ⟨(number_reads_longest_literal G lone).1 (mt hlone.begins_iff.1 (not_not_intro rfl)),
    (number_reads_longest_literal G lone).2.2.2.2.1 _ _ fun text => Decimal.exists_ofLiteral?,
    hyields, hhands.refused _ rfl, hseven, v, ?_⟩
  rw [← hend.2 hnone]
  exact hv

end Backtrack
