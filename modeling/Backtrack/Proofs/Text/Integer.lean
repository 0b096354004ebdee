import Backtrack.Proofs.Backend.Between
import Backtrack.Proofs.Text.Literal

/-!
# Proofs/Text/Integer — an integer is read exactly

    before ▸ sign, digits, rest   ──integer──▸   before, sign, digits ▸ rest      value in range
                                  ──integer──▸   before ▸ sign, digits, rest      out of range

The number is put together digit by digit, each step within a signed word of 64 bits and away from
zero.  So no step leaves the range on the way to a number within it (`fitted_bind_extend`): the
checks along the way are one check at the end, and the least number needs no greatest one plus one.
-/

namespace Backtrack

variable {N : Type → Type} {G : Grammar N UInt8} {negative : Bool}
  {input whole rest : List UInt8}

open ArrayCursor (between)
open Literal (signText signed natural value)

/-! ## The value -/

namespace Parser

/-- **A number in the range of a signed word of 64 bits.** -/
def Fits (z : Int) : Prop := -2 ^ 63 ≤ z ∧ z ≤ 2 ^ 63 - 1

theorem fitted_of_fits {z : Int} (h : Fits z) : fitted z = some z := if_pos h

theorem fitted_of_not_fits {z : Int} (h : ¬ Fits z) : fitted z = none := if_neg h

/-- A check is for nothing if another one follows that no misfit passes. -/
theorem fitted_bind_fitted {z : Int} {f : Int → Int} (h : Fits (f z) → Fits z) :
    (fitted z).bind (fun z => fitted (f z)) = fitted (f z) := by
  by_cases hz : Fits z
  · rw [fitted_of_fits hz, Option.bind_some]
  · rw [fitted_of_not_fits hz, fitted_of_not_fits (mt h hz), Option.bind_none]

/-- **Away from zero, a number that fits has only such before it.** -/
theorem fitted_bind_extend (negative : Bool) (n d : Nat) :
    (fitted (signed negative n)).bind (fun z => extend negative z d)
      = fitted (signed negative (10 * n + d)) := by
  -- the second half of a step; the first is the shift by ten
  let last (z : Int) : Int := if negative then z - d else z + d
  have hlast : last (10 * signed negative n) = signed negative (10 * n + d) := by
    rcases negative with _ | _ <;> simp [last, signed]; omega
  have hshifted : Fits (10 * signed negative n) → Fits (signed negative n) := by
    unfold Fits
    omega
  have haway : Fits (last (10 * signed negative n)) → Fits (10 * signed negative n) := by
    rcases negative with _ | _ <;> simp only [Fits, last, signed] <;> simp <;> omega
  calc (fitted (signed negative n)).bind (fun z => extend negative z d)
    _ = ((fitted (signed negative n)).bind fun z => fitted (10 * z)).bind
          fun z => fitted (last z) := (Option.bind_assoc _ _ _).symm
    _ = (fitted (10 * signed negative n)).bind fun z => fitted (last z) := by
      rw [fitted_bind_fitted hshifted]
    _ = fitted (last (10 * signed negative n)) := fitted_bind_fitted haway
    _ = fitted (signed negative (10 * n + d)) := by rw [hlast]

/-- **All checks along the way are one check at the end.** -/
theorem integerValue_eq_fitted (negative : Bool) (ds : List UInt8) :
    integerValue negative (ds.map Byte.digitValue) = fitted (signed negative (natural ds)) := by
  induction ds using List.reverseRecOn with
  | nil => cases negative <;> rfl
  | append_singleton ds b ih =>
    rw [Literal.natural_concat, ← fitted_bind_extend, ← ih, integerValue, List.map_append,
      List.foldlM_append]
    refine congrArg (Option.bind _) (funext fun z => ?_)
    exact bind_pure _

end Parser

/-! ## The parser -/

theorem takes_digit : Takes G .digit Byte.isDigit Byte.digitValue :=
  (takes_test G Byte.isDigit "symbol rejected by predicate").map Byte.digitValue

theorem yields_oneOf_taken (b : UInt8) (before after : List UInt8) :
    G.Yields (.oneOf [b]) (between before (b :: after)) (.ok b) (between (before ++ [b]) after) :=
  (takes_test G _ _).taken (by simp) before after

theorem yields_oneOf_refused {b : UInt8} (h : input.head? ≠ some b) (before : List UInt8) :
    ∃ e c, G.Yields (.oneOf [b]) (between before input) (.error (.parse e)) c := by
  refine (takes_test G _ _).refused (fun c hc => ?_) before
  have hne : c ≠ b := fun heq => h (heq ▸ hc)
  simpa using hne

section Opening

variable (h : Literal.Opening input negative whole rest) (before : List UInt8)
include h

/-- The sign is taken if there is one. -/
theorem yields_sign : G.Yields .sign (between before input) (.ok negative)
    (between (before ++ signText negative) (whole ++ rest)) := by
  obtain rfl := h.eq_append
  rcases negative with _ | _
  · have hsign := ArrayCursor.yields_optional_of_parse (G := G)
      (yields_oneOf_refused (h.unsigned rfl) before)
    rw [signText, if_neg Bool.false_ne_true, List.append_nil]
    exact hsign.bind (Grammar.yields_pure _)
  · have hsign := yields_oneOf_taken (G := G) Byte.minus before (whole ++ rest)
    exact (Grammar.yields_optional_iff.2 (.inr (.inr ⟨_, rfl, hsign⟩))).bind
      (Grammar.yields_pure _)

variable {α β : Type} {d : Parser N UInt8 β} {digitOf : UInt8 → β}
  (hd : Takes G d Byte.isDigit digitOf) {f : Bool → List β → Parser N UInt8 α}
include hd

/-- **A sign and no digit** is no beginning: the sign is given back. -/
theorem yields_signed_refused (hwhole : whole = []) :
    G.Yields (.attempt (.bind .sign fun negative => .bind (.manyOne d) (f negative)))
      (between before input) (.error (.parse ⟨"no parses succeeded", before.length⟩))
      (between before input) := by
  subst hwhole
  have hdigits := hd.yields_manyOne_refused h.rest_head (before ++ signText negative)
  have hsigned : G.Yields (.bind .sign fun negative => .bind (.manyOne d) (f negative)) _ _ _ :=
    (yields_sign h before).bind (hdigits.bind_error (f negative))
  exact ArrayCursor.yields_attempt_of_parse hsigned

/-- **A sign and digits**, and the rest of the parser after them. -/
theorem yields_signed (hwhole : whole ≠ []) {x : Except Failure α} {m : ArrayCursor UInt8}
    (hf : G.Yields (f negative (whole.map digitOf))
      (between (before ++ signText negative ++ whole) rest) x m) :
    G.Yields (.bind .sign fun negative => .bind (.manyOne d) (f negative))
      (between before input) x m := by
  have hdigits := hd.yields_manyOne hwhole h.whole_digits h.rest_head (before ++ signText negative)
  exact (yields_sign h before).bind (hdigits.bind hf)

end Opening

/-! ### Integers -/

section Integer

variable (h : Literal.Opening input negative whole rest) (before : List UInt8)
include h

theorem advance_opening : (between before input).advance (signText negative ++ whole).length
    = between (before ++ signText negative ++ whole) rest := by
  rw [h.eq_append, ← List.append_assoc, ArrayCursor.advance_between, List.append_assoc]

variable (hwhole : whole ≠ [])
include hwhole

theorem yields_integer (hfits : Parser.Fits (signed negative (natural whole))) :
    G.Yields .integer (between before input) (.ok (signed negative (natural whole)))
      ((between before input).advance (signText negative ++ whole).length) := by
  refine Grammar.yields_attempt_ok_iff.2 (yields_signed h before takes_digit hwhole ?_)
  rw [Parser.integerValue_eq_fitted, Parser.fitted_of_fits hfits, advance_opening h]
  exact Grammar.yields_pure _

theorem yields_integer_misfit (hfits : ¬ Parser.Fits (signed negative (natural whole))) :
    G.Yields .integer (between before input)
      (.error (.parse ⟨"integer literal out of range", before.length⟩)) (between before input) := by
  let taken := before ++ signText negative ++ whole
  refine ArrayCursor.yields_attempt_of_parse (c := between taken rest)
    (e := ⟨"integer literal out of range", taken.length⟩)
    (yields_signed h before takes_digit hwhole ?_)
  rw [Parser.integerValue_eq_fitted, Parser.fitted_of_not_fits hfits]
  exact Grammar.yields_error _

end Integer

/-- **An integer is read exactly.**  Where no literal begins, nothing is taken.  Where one does, the
longest is taken if its value is within 64 bits, whatever its length, and otherwise nothing.  So
the decimal text of a signed word is read back. -/
theorem integer_reads_longest_literal (G : Grammar N UInt8) (m : ArrayCursor UInt8) :
    ((¬ ∃ text ∈ Literal.integer, text <+: m.remaining) →
      G.Yields .integer m (.error (.parse ⟨"no parses succeeded", m.pos⟩)) m) ∧
    ((∃ text ∈ Literal.integer, text <+: m.remaining) →
      ∃ text, Literal.Longest Literal.integer m.remaining text ∧
        (-2 ^ 63 ≤ value text ∧ value text ≤ 2 ^ 63 - 1 →
          G.Yields .integer m (.ok (value text)) (m.advance text.length) ∧
          (m.advance text.length).pos = m.pos + text.length) ∧
        (¬ (-2 ^ 63 ≤ value text ∧ value text ≤ 2 ^ 63 - 1) →
          G.Yields .integer m (.error (.parse ⟨"integer literal out of range", m.pos⟩)) m)) ∧
    ∀ (v : Int64) (rest : List UInt8), m.remaining = Byte.ofText (toString v.toInt) ++ rest →
      (∀ b ∈ rest.head?, Byte.isDigit b = false) →
      G.Yields .integer m (.ok v.toInt) (m.advance (Byte.ofText (toString v.toInt)).length) := by
  obtain ⟨before, input, rfl⟩ : ∃ before input, m = between before input :=
    ⟨_, _, m.between_remaining.symm⟩
  rw [ArrayCursor.remaining_between, ArrayCursor.pos_between]
  obtain ⟨negative, whole, rest, h⟩ := Literal.exists_opening input
  rw [h.begins_iff, not_not]
  refine ⟨yields_signed_refused h before takes_digit, fun hwhole => ?_,
    fun v rest htext hrest => ?_⟩
  · have hlongest := h.longest_integer hwhole
    have hvalue : value (signText negative ++ whole) = signed negative (natural whole) :=
      Literal.value_append (Literal.mem_digits_iff.2 ⟨hwhole, h.whole_digits⟩)
    refine ⟨signText negative ++ whole, hlongest, ?_⟩
    rw [hvalue]
    exact ⟨fun hfits => ⟨yields_integer h before hwhole hfits,
      ArrayCursor.pos_advance_between before input hlongest.begins⟩,
      yields_integer_misfit h before hwhole⟩
  -- the opening found above is of no use here: the text of a word comes with one of its own
  · obtain ⟨negative, ds, hds, hwritten, hvalue⟩ := Literal.exists_ofText_toString v.toInt
    have hfits : Parser.Fits v.toInt := ⟨v.le_toInt, Int.le_sub_one_of_lt v.toInt_lt⟩
    obtain rfl : input = signText negative ++ (ds ++ rest) := by
      rw [htext, hwritten, List.append_assoc]
    rw [hwritten]
    rw [← hvalue] at hfits ⊢
    exact yields_integer (Literal.opening_append negative hds hrest) before
      (Literal.mem_digits_iff.1 hds).1 hfits

/-- A sign without a digit is given back, and so is a number one above the greatest word.  With a
sign, the same digits are the least word, and the zeros before them do not count. -/
theorem leastWord_read_back :
    let G : Grammar (fun _ => Empty) UInt8 := ⟨fun r => nomatch r⟩
    let size := Byte.ofText "0009223372036854775808"
    let lone := between size [Byte.minus, 120]
    let above := between [] (size ++ [46])
    let below := between [48] (Byte.minus :: size ++ [46])
    let written := between [] (Byte.ofText (toString Int64.minValue.toInt) ++ [44])
    G.Yields .integer lone (.error (.parse ⟨"no parses succeeded", 22⟩)) lone ∧
      G.Yields .integer above (.error (.parse ⟨"integer literal out of range", 0⟩)) above ∧
      G.Yields .integer below (.ok (-9223372036854775808)) (below.advance 23) ∧
      G.Yields .integer written (.ok Int64.minValue.toInt) (written.advance 20) := by
  intro G size lone above below written
  have hsize : size ∈ Literal.digits :=
    Literal.mem_digits_iff.2 ⟨by decide, List.all_eq_true.1 rfl⟩
  have hhead : ∀ {b : UInt8}, Byte.isDigit b = false → ∀ c ∈ [b].head?, Byte.isDigit c = false := by
    rintro b hb _ ⟨⟩
    exact hb
  have hopening := fun negative => Literal.opening_append negative hsize (@hhead 46 rfl)
  have hlongest := fun negative => (hopening negative).longest_integer (List.cons_ne_nil _ _)
  refine ⟨?_, ?_, ?_, ?_⟩
  · refine (integer_reads_longest_literal G lone).1 ?_
    have hlone : Literal.Opening [Byte.minus, 120] true [] [120] :=
      ⟨rfl, nofun, hhead rfl, nofun⟩
    exact mt hlone.begins_iff.1 (not_not_intro rfl)
  · obtain ⟨text, htext, -, hmisfit⟩ := (integer_reads_longest_literal G above).2.1
      ⟨_, (hlongest false).mem, (hlongest false).begins⟩
    obtain rfl := htext.unique (hlongest false)
    exact hmisfit (by decide)
  · obtain ⟨text, htext, hfits, -⟩ := (integer_reads_longest_literal G below).2.1
      ⟨_, (hlongest true).mem, (hlongest true).begins⟩
    obtain rfl := htext.unique (hlongest true)
    exact (hfits (by decide)).1
  · exact (integer_reads_longest_literal G written).2.2 Int64.minValue [44] rfl (hhead rfl)

end Backtrack
