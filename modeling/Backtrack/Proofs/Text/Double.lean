import Backtrack.Proofs.Number.Rounding
import Backtrack.Proofs.Text.Number

/-!
# Proofs/Text/Double — a number that is read is correctly rounded

    - 7 . 2 5               negative      7 + 25 / 100
    - 0 0 7 . 2 5 0 0       negative      7 + 2500 / 10000

A numeral is a sign or none, a row of digits, and a fraction or none (`Numeral`).  Its size is an
exact fraction, in which zeros in front and zeros at the end of the fraction do not count
(`Numeral.Padded.size_eq`).  The double of a numeral depends on its sign and its size alone, and in
the size it is monotone.

What the parser of numbers takes is a numeral that is not continued by what follows
(`exists_readsAs`), and a text is a numeral in one way only (`Numeral.text_injective`); so the size
of what was taken is well defined.  No digit is left out on the way, however many there are: it is
the exact fraction that is rounded, once.
-/

namespace Backtrack

open ArrayCursor (between)
open Literal (signText fractionText natural digits)

/-! ## Rows of digits and fractions -/

namespace Literal

/-- Digits behind a row move it up by a power of ten each. -/
theorem natural_append (ds more : List UInt8) :
    natural (ds ++ more) = natural ds * 10 ^ more.length + natural more := by
  rw [natural, List.reverse_append, List.map_append, Nat.ofDigits_append, List.length_map,
    List.length_reverse, Nat.mul_comm, Nat.add_comm]
  rfl

/-- The digit that is worth nothing. -/
def zero : UInt8 := 48

theorem natural_replicate_zero (k : Nat) : natural (List.replicate k zero) = 0 := by
  rw [natural, List.reverse_replicate, List.map_replicate]
  exact Nat.ofDigits_replicate_zero

theorem fractionText_injective : Function.Injective fractionText
  | none, none, _ => rfl
  | some _, some _, h => congrArg some (List.cons.inj h).2

end Literal

/-! ## Numerals -/

/-- **A number as it is written**: a sign or none, digits, and a fraction or none. -/
@[ext]
structure Numeral where
  negative : Bool
  whole : List UInt8
  fraction : Option (List UInt8)
  whole_mem : whole ∈ digits
  fraction_mem : ∀ ds ∈ fraction, ds ∈ digits

namespace Numeral

variable {p p' : Numeral} {after : List UInt8}

/-- The text of a numeral. -/
def text (p : Numeral) : List UInt8 := signText p.negative ++ p.whole ++ fractionText p.fraction

/-- The digits behind the point. -/
def places (p : Numeral) : List UInt8 := p.fraction.getD []

/-- **The number it stands for**, exactly and without its sign. -/
def size (p : Numeral) : ℚ := natural p.whole + natural p.places / 10 ^ p.places.length

/-- The decimal fraction that the text converts to. -/
def decimal (p : Numeral) : Decimal := ⟨p.negative, natural (p.whole ++ p.places), p.places.length⟩

theorem ofLiteral?_text (p : Numeral) :
    Decimal.ofLiteral? (Byte.toText p.text) = some p.decimal :=
  Decimal.ofLiteral?_toText p.negative p.whole_mem p.fraction_mem

theorem fraction_eq_none_iff (p : Numeral) : p.fraction = none ↔ p.places.length = 0 := by
  rw [places, List.length_eq_zero_iff]
  rcases hfraction : p.fraction with _ | ds
  · exact iff_of_true rfl rfl
  · have hds := (Literal.mem_digits_iff.1 (p.fraction_mem ds hfraction)).1
    exact iff_of_false nofun hds

/-- The point takes up a place of its own, if there is a fraction. -/
theorem length_fractionText (p : Numeral) : (fractionText p.fraction).length
    = if p.places.length = 0 then 0 else p.places.length + 1 := by
  rcases hfraction : p.fraction with _ | ds
  · rw [if_pos (p.fraction_eq_none_iff.1 hfraction)]
    rfl
  · have hsome : p.fraction ≠ none := by
      rw [hfraction]
      exact Option.some_ne_none ds
    rw [if_neg (mt p.fraction_eq_none_iff.2 hsome), places, hfraction]
    rfl

/-- **A text is a numeral in one way only.** -/
theorem text_injective (h : p.text = p'.text) : p = p' := by
  have hdecimal : p.decimal = p'.decimal := by
    refine Option.some.inj ?_
    rw [← ofLiteral?_text, ← ofLiteral?_text, h]
  have hnegative : p.negative = p'.negative := congrArg Decimal.negative hdecimal
  have hplaces : p.places.length = p'.places.length := congrArg Decimal.places hdecimal
  have hlength : (fractionText p.fraction).length = (fractionText p'.fraction).length := by
    rw [length_fractionText, length_fractionText, hplaces]
  obtain ⟨hsigned, hfraction⟩ := List.append_inj' h hlength
  rw [hnegative, List.append_cancel_left_eq] at hsigned
  exact Numeral.ext hnegative hsigned (Literal.fractionText_injective hfraction)

/-! ### Its double -/

theorem size_eq_div (p : Numeral) :
    p.size = (natural (p.whole ++ p.places) : ℚ) / (10 ^ p.places.length : Nat) := by
  have hpow : (10 : ℚ) ^ p.places.length ≠ 0 := pow_ne_zero _ (by norm_num)
  rw [size, Literal.natural_append]
  push_cast
  rw [add_div, mul_div_cancel_right₀ _ hpow]

theorem correctlyRounded (p : Numeral) :
    Binary64.CorrectlyRounded p.negative p.size p.decimal.toBinary64 := by
  rw [size_eq_div]
  exact Binary64.correctlyRounded_ofFraction _ _ (Nat.pow_pos (by decide))

theorem pattern_eq_magnitude (p : Numeral) : p.decimal.toBinary64.pattern
    = Binary64.magnitude (natural (p.whole ++ p.places)) (10 ^ p.places.length) :=
  Binary64.pattern_ofFraction _ _ _

/-- **The magnitude is monotone in the size.** -/
theorem pattern_le (h : p.size ≤ p'.size) :
    p.decimal.toBinary64.pattern ≤ p'.decimal.toBinary64.pattern := by
  rw [size_eq_div, size_eq_div] at h
  rw [pattern_eq_magnitude, pattern_eq_magnitude]
  exact Binary64.magnitude_le (Nat.pow_pos (by decide)) (Nat.pow_pos (by decide)) h

/-- **The sign and the size are all that counts.** -/
theorem toBinary64_eq (hnegative : p.negative = p'.negative) (hsize : p.size = p'.size) :
    p.decimal.toBinary64 = p'.decimal.toBinary64 := by
  refine Binary64.eq_of_pattern_eq ?_ ((pattern_le hsize.le).antisymm (pattern_le hsize.ge))
  rw [p.correctlyRounded.isNegative_eq, hnegative, p'.correctlyRounded.isNegative_eq]

/-! ### Zeros that do not count -/

/-- **The same numeral with zeros in front and at the end of its fraction**, any number of them; a
fraction of zeros only may stand where there was none. -/
structure Padded (p p' : Numeral) : Prop where
  negative_eq : p'.negative = p.negative
  whole_eq : ∃ i, p'.whole = List.replicate i Literal.zero ++ p.whole
  places_eq : ∃ j, p'.places = p.places ++ List.replicate j Literal.zero

theorem Padded.size_eq (h : p.Padded p') : p'.size = p.size := by
  obtain ⟨i, hwhole⟩ := h.whole_eq
  obtain ⟨j, hplaces⟩ := h.places_eq
  have hpow : (10 : ℚ) ^ j ≠ 0 := pow_ne_zero _ (by norm_num)
  rw [size, hwhole, hplaces, Literal.natural_append, Literal.natural_append,
    Literal.natural_replicate_zero, Literal.natural_replicate_zero, List.length_append,
    List.length_replicate, pow_add]
  push_cast
  rw [zero_mul, zero_add, add_zero, mul_div_mul_right _ _ hpow, size]

/-! ### Where it ends -/

/-- **What does not continue a numeral**: no digit, and if it has no fraction, none either. -/
structure Stops (p : Numeral) (after : List UInt8) : Prop where
  digit : ∀ b ∈ after.head?, Byte.isDigit b = false
  fraction : p.fraction = none →
    ¬ ∃ b tail, Byte.isDigit b = true ∧ after = Byte.point :: b :: tail

theorem Stops.padded (h : p.Stops after) (hpadded : p.Padded p') : p'.Stops after where
  digit := h.digit
  fraction hnone := by
    obtain ⟨j, hplaces⟩ := hpadded.places_eq
    refine h.fraction (p.fraction_eq_none_iff.2 ?_)
    rw [fraction_eq_none_iff, hplaces, List.length_append] at hnone
    exact Nat.eq_zero_of_add_eq_zero_right hnone

theorem Stops.fractionAt (h : p.Stops after) :
    Literal.FractionAt (fractionText p.fraction ++ after) p.fraction after := by
  rcases hfraction : p.fraction with _ | ds
  · exact .none (h.fraction hfraction)
  · exact .some (p.fraction_mem ds hfraction) h.digit

theorem Stops.opening (h : p.Stops after) : Literal.Opening (p.text ++ after) p.negative p.whole
    (fractionText p.fraction ++ after) := by
  have hrest : ∀ b ∈ (fractionText p.fraction ++ after).head?, Byte.isDigit b = false := by
    rcases p.fraction with _ | ds
    · exact h.digit
    · rintro _ ⟨⟩
      rfl
  rw [text, List.append_assoc, List.append_assoc]
  exact Literal.opening_append p.negative p.whole_mem hrest

/-- **Where a number begins, there is a numeral that stops.** -/
theorem exists_stops {input whole rest : List UInt8} {negative : Bool}
    (h : Literal.Opening input negative whole rest) (hwhole : whole ≠ []) :
    ∃ (p : Numeral) (after : List UInt8), input = p.text ++ after ∧ p.Stops after := by
  obtain ⟨fraction, after, hfraction⟩ := Literal.exists_fractionAt rest
  have hmem := Literal.mem_digits_iff.2 ⟨hwhole, h.whole_digits⟩
  have hinput : input = signText negative ++ whole ++ fractionText fraction ++ after := by
    rw [h.eq_append, hfraction.eq_append, List.append_assoc, List.append_assoc]
  refine ⟨⟨negative, whole, fraction, hmem, hfraction.mem_digits⟩, after, hinput, ?_⟩
  obtain hnone | ⟨-, hafter⟩ := hfraction
  · exact ⟨h.rest_head, fun _ => hnone⟩
  · exact ⟨hafter, fun hsome => absurd hsome (Option.some_ne_none _)⟩

end Numeral

/-! ## Reading -/

variable {N : Type → Type} {G : Grammar N UInt8} {m m' : ArrayCursor UInt8} {p p' : Numeral}
  {d : Binary64} {after : List UInt8}

/-- **A number is read from a numeral**, which was ahead and no longer is. -/
structure ReadsAs (G : Grammar N UInt8) (m : ArrayCursor UInt8) (p : Numeral) (d : Binary64)
    (m' : ArrayCursor UInt8) : Prop where
  yields : G.Yields .number m (.ok d) m'
  remaining_eq : m.remaining = p.text ++ m'.remaining
  pos_eq : m'.pos = m.pos + p.text.length

theorem ReadsAs.unique (h : ReadsAs G m p d m') (h' : ReadsAs G m p' d m') : p = p' := by
  have htext := h.remaining_eq.symm.trans h'.remaining_eq
  exact Numeral.text_injective (List.append_cancel_right htext)

/-- A numeral that stops is read. -/
theorem readsAs_of_stops (h : p.Stops after) (before : List UInt8) :
    ReadsAs G (between before (p.text ++ after)) p p.decimal.toBinary64
      (between (before ++ p.text) after) where
  yields := by
    have hne := (Literal.mem_digits_iff.1 p.whole_mem).1
    rw [← ArrayCursor.advance_between]
    exact yields_number h.opening hne h.fractionAt before
  remaining_eq := by rw [ArrayCursor.remaining_between, ArrayCursor.remaining_between]
  pos_eq := by rw [ArrayCursor.pos_between, ArrayCursor.pos_between, List.length_append]

/-- **Nothing else is read as a number.** -/
theorem exists_readsAs (h : G.Yields .number m (.ok d) m') :
    ∃ p, ReadsAs G m p d m' ∧ p.Stops m'.remaining ∧ d = p.decimal.toBinary64 := by
  obtain ⟨before, input, rfl⟩ : ∃ before input, m = between before input :=
    ⟨_, _, m.between_remaining.symm⟩
  obtain ⟨negative, whole, rest, hopening⟩ := Literal.exists_opening input
  by_cases hwhole : whole = []
  · cases (h.unique (yields_signed_refused hopening before takes_satisfy_digit hwhole)).1
  · obtain ⟨p, after, rfl, hstops⟩ := Numeral.exists_stops hopening hwhole
    have hreads := readsAs_of_stops (G := G) hstops before
    obtain ⟨hd, rfl⟩ := h.unique hreads.yields
    obtain rfl := Except.ok.inj hd
    rw [ArrayCursor.remaining_between]
    exact ⟨p, hreads, hstops, rfl⟩

/-- **The numeral says what is read and where it stops.** -/
theorem ReadsAs.stops (h : ReadsAs G m p d m') :
    p.Stops m'.remaining ∧ d = p.decimal.toBinary64 := by
  obtain ⟨p', h', hstops⟩ := exists_readsAs h.yields
  obtain rfl := h.unique h'
  exact hstops

/-- **A number that is read is correctly rounded.**  What was taken is a numeral, in one way only.
The sign is that of the numeral, and the magnitude that of the double nearest to its size.  More
zeros in front and at the end of its fraction change nothing: all of it is still read, and the
double is the same.  And a greater size has no lesser magnitude. -/
theorem number_correctly_rounded (G : Grammar N UInt8) :
    (∀ m d m', G.Yields .number m (.ok d) m' → ∃! p, ReadsAs G m p d m') ∧
    (∀ m p d m', ReadsAs G m p d m' → Binary64.CorrectlyRounded p.negative p.size d) ∧
    (∀ m p d m' p', ReadsAs G m p d m' → p.Padded p' →
      (∀ before, ReadsAs G (between before (p'.text ++ m'.remaining)) p' d
        (between (before ++ p'.text) m'.remaining)) ∧
      ∀ m₁ d₁ m₁', ReadsAs G m₁ p' d₁ m₁' → d₁ = d) ∧
    ∀ m p d m' m₁ p₁ d₁ m₁', ReadsAs G m p d m' → ReadsAs G m₁ p₁ d₁ m₁' →
      p.size ≤ p₁.size → d.pattern ≤ d₁.pattern := by
  refine ⟨fun m d m' h => ?_, fun m p d m' h => ?_, fun m p d m' p' h hpadded => ?_,
    fun m p d m' m₁ p₁ d₁ m₁' h h₁ hsize => ?_⟩
  · obtain ⟨p, hp, -⟩ := exists_readsAs h
    exact ⟨p, hp, fun p' hp' => hp'.unique hp⟩
  · rw [h.stops.2]
    exact p.correctlyRounded
  · obtain ⟨hstops, rfl⟩ := h.stops
    have hsame := Numeral.toBinary64_eq hpadded.negative_eq hpadded.size_eq
    refine ⟨fun before => ?_, fun m₁ d₁ m₁' h₁ => h₁.stops.2.trans hsame⟩
    rw [← hsame]
    exact readsAs_of_stops (hstops.padded hpadded) before
  · rw [h.stops.2, h₁.stops.2]
    exact Numeral.pattern_le hsize

/-- `-9007199254740993` is halfway between two doubles, and the lower one is even.  A point without
a digit behind it is no fraction, so that is all that is read; with zeros all around, it is the same
double. -/
theorem halfway_rounds_to_even :
    let G : Grammar (fun _ => Empty) UInt8 := ⟨fun r => nomatch r⟩
    let plain := Byte.ofText "-9007199254740993"
    let padded := Byte.ofText "-009007199254740993.000"
    let rest := [Byte.point, 120]
    let d : Binary64 := ⟨0xc340000000000000⟩
    G.Yields .number (between [55] (plain ++ rest)) (.ok d) (between ([55] ++ plain) rest) ∧
      Binary64.CorrectlyRounded true 9007199254740993 d ∧
      G.Yields .number (between [] (padded ++ rest)) (.ok d) (between ([] ++ padded) rest) := by
  intro G plain padded rest d
  have hmem : ∀ ds : List UInt8, ds ≠ [] → ds.all Byte.isDigit = true → ds ∈ digits :=
    fun ds hne hall => Literal.mem_digits_iff.2 ⟨hne, List.all_eq_true.1 hall⟩
  let p : Numeral := ⟨true, Byte.ofText "9007199254740993", none, hmem _ nofun rfl, nofun⟩
  let p' : Numeral := ⟨true, Byte.ofText "009007199254740993", some (Byte.ofText "000"),
    hmem _ nofun rfl, by rintro _ ⟨⟩; exact hmem _ nofun rfl⟩
  have hstops : p.Stops rest := by
    refine ⟨by rintro _ ⟨⟩; rfl, ?_⟩
    rintro - ⟨b, tail, hb, htail⟩
    obtain rfl : 120 = b := (List.cons.inj (List.cons.inj htail).2).1
    exact absurd hb (by decide)
  have hnatural : natural (Byte.ofText "9007199254740993") = 9007199254740993 := by decide +kernel
  have hdecimal : p.decimal = ⟨true, 9007199254740993, 0⟩ := congrArg (Decimal.mk true · 0) hnatural
  have hdouble : Decimal.toBinary64 ⟨true, 9007199254740993, 0⟩ = ⟨0xc340000000000000⟩ := by
    decide +kernel
  have hsize : p.size = 9007199254740993 := by
    rw [Numeral.size_eq_div]
    change (natural (Byte.ofText "9007199254740993") : ℚ) / (10 ^ 0 : Nat) = _
    rw [hnatural, pow_zero, Nat.cast_one, div_one, Nat.cast_ofNat]
  have hreads := readsAs_of_stops (G := G) hstops [55]
  rw [hdecimal, hdouble] at hreads
  obtain ⟨-, hrounded, hpadded, -⟩ := number_correctly_rounded G
  refine ⟨hreads.yields, hsize ▸ hrounded _ _ _ _ hreads, ?_⟩
  exact ((hpadded _ _ _ _ p' hreads ⟨rfl, ⟨2, rfl⟩, ⟨3, rfl⟩⟩).1 []).yields

end Backtrack
