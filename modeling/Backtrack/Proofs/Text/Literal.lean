import Mathlib.Computability.Language
import Mathlib.Data.Nat.Digits.Defs
import Backtrack.Text.Value

/-!
# Proofs/Text/Literal — the texts of numbers, as languages

    integer   -?[0-9]+
    number    -?[0-9]+(\.[0-9]+)?

What a parser of numbers is to take is the longest beginning of its input that is in a language
(`Longest`).  Which one that is can be read off the input: a sign or none, a row of digits, and what
is not a digit (`Opening`); and in the rest a point with a row of digits behind it, or not
(`FractionAt`).  No other beginning in the language goes beyond, since neither a point nor a sign is
a digit.
-/

open scoped Computability

namespace Backtrack

/-! ## Bytes and characters -/

namespace Byte

theorem toNat_toChar (b : UInt8) : (toChar b).toNat = b.toNat := by
  have hb : b.toNat < 256 := b.toNat_lt
  have hvalid : b.toNat.isValidChar := .inl (by omega)
  rw [toChar, Char.ofNat, dif_pos hvalid]
  rfl

theorem isDigit_toChar (b : UInt8) : (toChar b).isDigit = isDigit b := by
  rw [Bool.eq_iff_iff, Char.isDigit_iff_toNat, toNat_toChar]
  simp [isDigit, UInt8.le_iff_toNat_le]

/-- **Up to 127, a byte is its own encoding**, and a text of such bytes is those bytes. -/
theorem ofText_toText {bytes : List UInt8} (h : ∀ b ∈ bytes, b.toNat ≤ 127) :
    ofText (toText bytes) = bytes := by
  have hencode : ∀ b ∈ bytes, String.utf8EncodeChar (toChar b) = [b] := by
    intro b hb
    have hval : (toChar b).val.toNat = b.toNat := toNat_toChar b
    rw [String.utf8EncodeChar, hval, if_pos (h b hb), UInt8.ofNat_toNat]
  calc ofText (toText bytes)
    _ = bytes.flatMap fun b => String.utf8EncodeChar (toChar b) := by
      rw [ofText, toText, String.toList_ofList, List.flatMap_map]
    _ = bytes.flatMap fun b => [b] := List.flatMap_congr hencode
    _ = bytes := List.flatMap_singleton' bytes

theorem toNat_le_of_isDigit {b : UInt8} (h : isDigit b = true) : b.toNat ≤ 127 := by
  simp only [isDigit, Bool.and_eq_true, decide_eq_true_eq, UInt8.le_iff_toNat_le] at h
  exact h.2.trans (by decide)

/-- Every row of digits among characters is one among bytes. -/
theorem exists_map_toChar {cs : List Char} (h : ∀ c ∈ cs, c.isDigit = true) :
    ∃ ds : List UInt8, (∀ b ∈ ds, isDigit b = true) ∧ ds.map toChar = cs := by
  have hchar : ∀ c ∈ cs, toChar (UInt8.ofNat c.toNat) = c := by
    intro c hc
    have hc' : c.toNat ≤ 57 := (Char.isDigit_iff_toNat.1 (h c hc)).2
    have hlt : c.toNat < UInt8.size := Nat.lt_of_le_of_lt hc' (by decide)
    rw [toChar, UInt8.toNat_ofNat_of_lt' hlt, Char.ofNat_toNat]
  refine ⟨cs.map fun c => UInt8.ofNat c.toNat, ?_, ?_⟩
  · rw [List.forall_mem_map]
    intro c hc
    rw [← isDigit_toChar, hchar c hc, h c hc]
  · rw [List.map_map]
    exact (List.map_congr_left hchar).trans (List.map_id cs)

end Byte

namespace Literal

variable {negative : Bool} {input text whole rest after ds : List UInt8}
  {fraction : Option (List UInt8)}

/-! ## The languages -/

/-- `[0-9]` -/
def digit : Language UInt8 := {text | ∃ b, Byte.isDigit b = true ∧ text = [b]}

/-- `[0-9]+` -/
def digits : Language UInt8 := digit * digit∗

/-- `-?[0-9]+` -/
def integer : Language UInt8 := (1 + {[Byte.minus]}) * digits

/-- `-?[0-9]+(\.[0-9]+)?` -/
def number : Language UInt8 := integer * (1 + {[Byte.point]} * digits)

/-- **The longest beginning of the input that is in the language.** -/
structure Longest (L : Language UInt8) (input text : List UInt8) : Prop where
  begins : text <+: input
  mem : text ∈ L
  length_le : ∀ other ∈ L, other <+: input → other.length ≤ text.length

theorem Longest.unique {L : Language UInt8} {other : List UInt8} (h : Longest L input text)
    (h' : Longest L input other) : text = other := by
  have hle := h'.length_le text h.mem h.begins
  have hge := h.length_le other h'.mem h'.begins
  exact (List.prefix_of_prefix_length_le h.begins h'.begins hle).eq_of_length_le hge

theorem mem_digits_iff : ds ∈ digits ↔ ds ≠ [] ∧ ∀ b ∈ ds, Byte.isDigit b = true := by
  rw [digits, Language.mem_mul]
  constructor
  · rintro ⟨_, ⟨b, hb, rfl⟩, _, hrest, rfl⟩
    obtain ⟨parts, rfl, hparts⟩ := Language.mem_kstar.1 hrest
    refine ⟨List.cons_ne_nil _ _, List.forall_mem_cons.2 ⟨hb, fun c hc => ?_⟩⟩
    obtain ⟨part, hpart, hc⟩ := List.mem_flatten.1 hc
    obtain ⟨c', hc', rfl⟩ := hparts part hpart
    rwa [List.mem_singleton.1 hc]
  · rintro ⟨hne, hall⟩
    obtain ⟨b, ds, rfl⟩ := List.exists_cons_of_ne_nil hne
    obtain ⟨hb, hall⟩ := List.forall_mem_cons.1 hall
    refine ⟨[b], ⟨b, hb, rfl⟩, ds, Language.mem_kstar.2 ⟨ds.map fun c => [c], ?_, ?_⟩, rfl⟩
    · exact (List.flatMap_singleton' ds).symm
    · intro part hpart
      obtain ⟨c, hc, rfl⟩ := List.mem_map.1 hpart
      exact ⟨c, hall c hc, rfl⟩

/-! ## Values -/

/-- **The number a row of digits stands for**, each digit with its power of ten. -/
def natural (ds : List UInt8) : Nat := Nat.ofDigits 10 (ds.reverse.map Byte.digitValue)

/-- One more digit is worth one, and all before it ten times as much. -/
theorem natural_concat (ds : List UInt8) (b : UInt8) :
    natural (ds ++ [b]) = 10 * natural ds + Byte.digitValue b := by
  rw [natural, List.reverse_append, List.reverse_singleton, List.singleton_append, List.map_cons,
    Nat.ofDigits_cons, Nat.add_comm]
  rfl

/-- A number with a sign. -/
def signed (negative : Bool) (n : Nat) : Int := if negative then -n else n

/-- **The number an integer stands for.** -/
def value (text : List UInt8) : Int :=
  if text.head? = some Byte.minus then signed true (natural text.tail)
  else signed false (natural text)

/-! ## Texts put together from their parts -/

/-- The text of a sign. -/
def signText (negative : Bool) : List UInt8 := if negative then [Byte.minus] else []

/-- The text of a fraction. -/
def fractionText : Option (List UInt8) → List UInt8
  | none => []
  | some ds => Byte.point :: ds

theorem mem_integer_iff : text ∈ integer ↔
    ∃ negative, ∃ ds ∈ digits, signText negative ++ ds = text := by
  rw [integer, Language.mem_mul]
  constructor
  · rintro ⟨_, hsign, ds, hds, rfl⟩
    obtain rfl | rfl := hsign
    · exact ⟨false, ds, hds, rfl⟩
    · exact ⟨true, ds, hds, rfl⟩
  · rintro ⟨_ | _, ds, hds, rfl⟩
    · exact ⟨[], .inl rfl, ds, hds, rfl⟩
    · exact ⟨[Byte.minus], .inr rfl, ds, hds, rfl⟩

theorem mem_number_iff : text ∈ number ↔
    ∃ whole ∈ integer, ∃ fraction, (∀ ds ∈ fraction, ds ∈ digits) ∧
      whole ++ fractionText fraction = text := by
  rw [number, Language.mem_mul]
  constructor
  · rintro ⟨whole, hwhole, _, hfraction, rfl⟩
    obtain rfl | hfraction := hfraction
    · exact ⟨whole, hwhole, none, nofun, rfl⟩
    · obtain ⟨_, rfl, ds, hds, rfl⟩ := Language.mem_mul.1 hfraction
      exact ⟨whole, hwhole, some ds, by rintro _ ⟨⟩; exact hds, rfl⟩
  · rintro ⟨whole, hwhole, _ | ds, hfraction, rfl⟩
    · exact ⟨whole, hwhole, [], .inl rfl, rfl⟩
    · exact ⟨whole, hwhole, _, .inr (Language.mem_mul.2 ⟨_, rfl, ds, hfraction ds rfl, rfl⟩), rfl⟩

/-- A row of digits does not begin with a sign. -/
theorem head?_ne_minus (hds : ds ∈ digits) (rest : List UInt8) :
    (ds ++ rest).head? ≠ some Byte.minus := by
  obtain ⟨hne, hall⟩ := mem_digits_iff.1 hds
  obtain ⟨b, ds, rfl⟩ := List.exists_cons_of_ne_nil hne
  rintro ⟨⟩
  exact absurd (hall Byte.minus List.mem_cons_self) (by decide)

theorem value_append (hds : ds ∈ digits) :
    value (signText negative ++ ds) = signed negative (natural ds) := by
  rcases negative with _ | _
  · have hhead := head?_ne_minus hds []
    rw [List.append_nil] at hhead
    exact if_neg hhead
  · rfl

/-- **A literal is ASCII throughout**, so its bytes and its characters are one to one. -/
theorem ofText_toText (h : text ∈ number) : Byte.ofText (Byte.toText text) = text := by
  obtain ⟨_, hinteger, fraction, hfraction, rfl⟩ := mem_number_iff.1 h
  obtain ⟨negative, whole, hwhole, rfl⟩ := mem_integer_iff.1 hinteger
  have hdigits : ∀ ds ∈ digits, ∀ b ∈ ds, b.toNat ≤ 127 := fun ds hds b hb =>
    Byte.toNat_le_of_isDigit ((mem_digits_iff.1 hds).2 b hb)
  refine Byte.ofText_toText fun b hb => ?_
  rw [List.mem_append, List.mem_append] at hb
  obtain (hsign | hwhole') | hfraction' := hb
  · rcases negative with _ | _
    · exact absurd hsign List.not_mem_nil
    · rw [List.mem_singleton.1 hsign]
      decide
  · exact hdigits whole hwhole b hwhole'
  · rcases fraction with _ | ds
    · exact absurd hfraction' List.not_mem_nil
    · obtain rfl | hds := List.mem_cons.1 hfraction'
      · decide
      · exact hdigits ds (hfraction ds rfl) b hds

/-! ## The decimal text of an integer -/

/-- The digits count the same as characters. -/
theorem ofDigits_map_toChar (ds : List UInt8) :
    Decimal.ofDigits (ds.map Byte.toChar) = natural ds := by
  induction ds using List.reverseRecOn with
  | nil => rfl
  | append_singleton ds b ih =>
    rw [natural_concat, ← ih, Decimal.ofDigits, List.map_append, List.foldl_append,
      List.map_singleton, List.foldl_cons, List.foldl_nil, Byte.toNat_toChar]
    rfl

theorem ofText_repr (n : Nat) :
    Byte.ofText n.repr ∈ digits ∧ natural (Byte.ofText n.repr) = n := by
  have hdigit : ∀ c ∈ Nat.toDigits 10 n, c.isDigit = true :=
    fun c hc => Nat.isDigit_of_mem_toDigits (by decide) (by decide) hc
  obtain ⟨ds, hds, hchars⟩ := Byte.exists_map_toChar hdigit
  have htext : Byte.ofText n.repr = ds := by
    rw [← Byte.ofText_toText fun b hb => Byte.toNat_le_of_isDigit (hds b hb), Byte.toText, hchars,
      ← Nat.toList_repr, String.ofList_toList]
  rw [htext]
  refine ⟨mem_digits_iff.2 ⟨?_, hds⟩, ?_⟩
  · rintro rfl
    exact Nat.toDigits_ne_nil hchars.symm
  · rw [← ofDigits_map_toChar, hchars]
    exact Nat.ofDigitChars_ten_toDigits

/-- **An integer is written with a sign or none, and the digits of its size.** -/
theorem exists_ofText_toString (z : Int) : ∃ negative, ∃ ds ∈ digits,
    Byte.ofText (toString z) = signText negative ++ ds ∧ signed negative (natural ds) = z := by
  rw [Int.toString_eq_repr, Int.repr_eq_if]
  by_cases hz : 0 ≤ z
  · obtain ⟨hmem, hvalue⟩ := ofText_repr z.toNat
    refine ⟨false, _, hmem, by rw [if_pos hz]; rfl, ?_⟩
    rw [hvalue]
    exact Int.toNat_of_nonneg hz
  · obtain ⟨hmem, hvalue⟩ := ofText_repr (-z).toNat
    refine ⟨true, _, hmem, ?_, ?_⟩
    · rw [if_neg hz, Byte.ofText, String.toList_append, List.flatMap_append]
      rfl
    · rw [hvalue, signed, if_pos rfl]
      omega

/-! ## What no literal goes beyond -/

/-- A row of digits that begins a row of digits and what is not a digit begins the row. -/
theorem digits_begins (hds : ∀ b ∈ ds, Byte.isDigit b = true)
    (hrest : ∀ b ∈ rest.head?, Byte.isDigit b = false) (h : ds <+: whole ++ rest) :
    ds <+: whole := by
  obtain ⟨tail, htail⟩ := h
  obtain ⟨more, rfl, -⟩ | ⟨more, rfl, rfl⟩ := List.append_eq_append_iff.1 htail
  · exact List.prefix_append ds more
  · rcases more with _ | ⟨b, more⟩
    · rw [List.append_nil]
    · have hdigit := hds b (by simp)
      rw [hrest b rfl] at hdigit
      cases hdigit

/-- …and with a point behind it, it is all of that row. -/
theorem digits_point_begins (hwhole : ∀ b ∈ whole, Byte.isDigit b = true)
    (hds : ∀ b ∈ ds, Byte.isDigit b = true) (hrest : ∀ b ∈ rest.head?, Byte.isDigit b = false)
    (h : ds ++ Byte.point :: text <+: whole ++ rest) :
    ds = whole ∧ Byte.point :: text <+: rest := by
  obtain ⟨more, rfl⟩ := digits_begins hds hrest ((List.prefix_append ds _).trans h)
  rw [List.append_assoc, List.prefix_append_right_inj] at h
  rcases more with _ | ⟨b, more⟩
  · exact ⟨(List.append_nil ds).symm, h⟩
  · obtain rfl := (List.cons_prefix_cons.1 h).1
    exact absurd (hwhole Byte.point (by simp)) (by decide)

/-! ## What is at the start of an input -/

/-- **How an input begins**: with a sign or none, a row of digits that may be empty, and what is not
a digit. -/
structure Opening (input : List UInt8) (negative : Bool) (whole rest : List UInt8) : Prop where
  eq_append : input = signText negative ++ (whole ++ rest)
  whole_digits : ∀ b ∈ whole, Byte.isDigit b = true
  rest_head : ∀ b ∈ rest.head?, Byte.isDigit b = false
  unsigned : negative = false → input.head? ≠ some Byte.minus

theorem opening_append (negative : Bool) (hds : ds ∈ digits)
    (hrest : ∀ b ∈ rest.head?, Byte.isDigit b = false) :
    Opening (signText negative ++ (ds ++ rest)) negative ds rest where
  eq_append := rfl
  whole_digits := (mem_digits_iff.1 hds).2
  rest_head := hrest
  unsigned hnegative := by
    subst hnegative
    exact head?_ne_minus hds rest

theorem head?_dropWhile_digits (input : List UInt8) :
    ∀ b ∈ (input.dropWhile Byte.isDigit).head?, Byte.isDigit b = false := by
  intro b hb
  have hnot := List.head?_dropWhile_not Byte.isDigit input
  rw [Option.mem_def.1 hb] at hnot
  exact hnot

theorem exists_opening (input : List UInt8) : ∃ negative whole rest,
    Opening input negative whole rest := by
  have hdigits : ∀ text : List UInt8, ∀ b ∈ text.takeWhile Byte.isDigit, Byte.isDigit b = true :=
    fun text => List.all_eq_true.1 List.all_takeWhile
  by_cases hminus : input.head? = some Byte.minus
  · obtain ⟨tail, rfl⟩ := List.head?_eq_some_iff.1 hminus
    refine ⟨true, _, _, ?_, hdigits tail, head?_dropWhile_digits tail, nofun⟩
    rw [List.takeWhile_append_dropWhile]
    rfl
  · refine ⟨false, _, _, ?_, hdigits input, head?_dropWhile_digits input, fun _ => hminus⟩
    rw [List.takeWhile_append_dropWhile]
    rfl

namespace Opening

variable (h : Opening input negative whole rest)
include h

/-- The only integers an input begins with are its own sign and some of its digits. -/
theorem of_integer_begins (hmem : text ∈ integer) (hbegins : text <+: input) :
    ∃ ds ∈ digits, text = signText negative ++ ds ∧ ds <+: whole := by
  obtain ⟨negative', ds, hds, rfl⟩ := mem_integer_iff.1 hmem
  obtain ⟨hne, hall⟩ := mem_digits_iff.1 hds
  obtain ⟨b, ds, rfl⟩ := List.exists_cons_of_ne_nil hne
  -- no digit is a sign, so the signs are the same
  obtain rfl : negative' = negative := by
    match negative', negative, h with
    | true, true, _ | false, false, _ => rfl
    | true, false, h =>
      obtain ⟨tail, rfl⟩ := hbegins
      exact absurd rfl (h.unsigned rfl)
    | false, true, h =>
      rw [h.eq_append] at hbegins
      obtain rfl := (List.cons_prefix_cons.1 hbegins).1
      exact absurd (hall Byte.minus List.mem_cons_self) (by decide)
  rw [h.eq_append, List.prefix_append_right_inj] at hbegins
  exact ⟨_, hds, rfl, digits_begins hall h.rest_head hbegins⟩

/-- **The longest integer is the sign and all of the digits.** -/
theorem longest_integer (hwhole : whole ≠ []) :
    Longest integer input (signText negative ++ whole) where
  begins := by
    rw [h.eq_append, List.prefix_append_right_inj]
    exact List.prefix_append whole rest
  mem := mem_integer_iff.2 ⟨negative, whole, mem_digits_iff.2 ⟨hwhole, h.whole_digits⟩, rfl⟩
  length_le other hmem hbegins := by
    obtain ⟨ds, -, rfl, hds⟩ := h.of_integer_begins hmem hbegins
    simpa using hds.length_le

/-- **A literal begins where there is a digit**, behind a sign or not. -/
theorem begins_iff : (∃ text ∈ integer, text <+: input) ↔ whole ≠ [] := by
  constructor
  · rintro ⟨text, hmem, hbegins⟩ rfl
    obtain ⟨ds, hds, -, hds'⟩ := h.of_integer_begins hmem hbegins
    exact (mem_digits_iff.1 hds).1 (List.prefix_nil.1 hds')
  · intro hwhole
    exact ⟨_, (h.longest_integer hwhole).mem, (h.longest_integer hwhole).begins⟩

end Opening

/-! ## What may follow an integer -/

/-- **A fraction at the start of the rest, or none**: a point with a row of digits behind it and
what is not a digit, or no point with a digit behind it. -/
inductive FractionAt : List UInt8 → Option (List UInt8) → List UInt8 → Prop where
  | none {rest : List UInt8}
      (h : ¬ ∃ b tail, Byte.isDigit b = true ∧ rest = Byte.point :: b :: tail) :
      FractionAt rest none rest
  | some {ds after : List UInt8} (hds : ds ∈ digits)
      (hafter : ∀ b ∈ after.head?, Byte.isDigit b = false) :
      FractionAt (Byte.point :: (ds ++ after)) (some ds) after

theorem exists_fractionAt (rest : List UInt8) :
    ∃ fraction after, FractionAt rest fraction after := by
  by_cases h : ∃ b tail, Byte.isDigit b = true ∧ rest = Byte.point :: b :: tail
  · obtain ⟨b, tail, hb, rfl⟩ := h
    have hds : (b :: tail).takeWhile Byte.isDigit ∈ digits :=
      mem_digits_iff.2 ⟨by simp [hb], List.all_eq_true.1 List.all_takeWhile⟩
    have hsome := FractionAt.some hds (head?_dropWhile_digits (b :: tail))
    rw [List.takeWhile_append_dropWhile] at hsome
    exact ⟨_, _, hsome⟩
  · exact ⟨none, rest, .none h⟩

theorem FractionAt.eq_append (h : FractionAt rest fraction after) :
    rest = fractionText fraction ++ after := by
  obtain _ | _ := h <;> rfl

theorem FractionAt.mem_digits (h : FractionAt rest fraction after) :
    ∀ ds ∈ fraction, ds ∈ digits := by
  obtain _ | ⟨hds, -⟩ := h
  · exact nofun
  · rintro _ ⟨⟩
    exact hds

theorem FractionAt.eq_none_iff (h : FractionAt rest fraction after) :
    fraction = Option.none ↔
      ¬ ∃ b tail, Byte.isDigit b = true ∧ rest = Byte.point :: b :: tail := by
  obtain hnone | ⟨hds, -⟩ := h
  · exact iff_of_true rfl hnone
  · obtain ⟨hne, hall⟩ := mem_digits_iff.1 hds
    obtain ⟨b, ds, rfl⟩ := List.exists_cons_of_ne_nil hne
    exact iff_of_false nofun (not_not_intro ⟨b, _, hall b List.mem_cons_self, rfl⟩)

/-- No fraction that begins the rest is longer. -/
theorem FractionAt.length_le (h : FractionAt rest fraction after) (hds : ds ∈ digits)
    (hbegins : Byte.point :: ds <+: rest) :
    (Byte.point :: ds).length ≤ (fractionText fraction).length := by
  obtain ⟨hne, hall⟩ := mem_digits_iff.1 hds
  obtain hnone | ⟨hds', hafter⟩ := h
  · obtain ⟨b, ds, rfl⟩ := List.exists_cons_of_ne_nil hne
    obtain ⟨tail, rfl⟩ := hbegins
    exact absurd ⟨b, ds ++ tail, hall b List.mem_cons_self, rfl⟩ hnone
  · have hbegins' := digits_begins hall hafter (List.cons_prefix_cons.1 hbegins).2
    exact Nat.succ_le_succ hbegins'.length_le

/-- **The longest number is the longest integer and the fraction behind it.** -/
theorem Opening.longest_number (h : Opening input negative whole rest) (hwhole : whole ≠ [])
    (hfraction : FractionAt rest fraction after) :
    Longest number input (signText negative ++ whole ++ fractionText fraction) where
  begins := by
    rw [h.eq_append, hfraction.eq_append, List.append_assoc, List.prefix_append_right_inj,
      ← List.append_assoc]
    exact List.prefix_append _ after
  mem := mem_number_iff.2 ⟨_, (h.longest_integer hwhole).mem, fraction, hfraction.mem_digits, rfl⟩
  length_le other hmem hbegins := by
    obtain ⟨_, hinteger, fraction', hfraction', rfl⟩ := mem_number_iff.1 hmem
    obtain ⟨ds, hds, rfl, hds'⟩ :=
      h.of_integer_begins hinteger ((List.prefix_append _ _).trans hbegins)
    have hlength := hds'.length_le
    rcases fraction' with _ | fs
    · simp only [fractionText, List.length_append, List.length_nil]
      omega
    · rw [h.eq_append, List.append_assoc, List.prefix_append_right_inj] at hbegins
      have hpoint := digits_point_begins h.whole_digits (mem_digits_iff.1 hds).2 h.rest_head hbegins
      have hlength' := hfraction.length_le (hfraction' fs rfl) hpoint.2
      simp only [fractionText, List.length_append, List.length_cons] at hlength' ⊢
      omega

end Literal

end Backtrack
