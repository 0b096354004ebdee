import Mathlib.Algebra.Order.Field.Basic
import Mathlib.Algebra.Order.Ring.Abs
import Backtrack.Proofs.Number.Pattern

/-!
# Proofs/Number/Rounding — the double nearest to a fraction

    value i ────▸ v ──────── halfway ──────────────── value (i + 1)
       ◂── down, 2r < den          up, den < 2r ──▸

A fraction lies between the numbers of two successive patterns.  The lower one is found by cutting
the fraction off after 53 bits, or after the last bit a double has; what is cut off decides which of
the two is nearer (`rounds_unbounded`).  Being one of the two, it is nearest among *all* numbers
with a pattern, and where both are as near, it is the even one (`Rounds`).

Two nearest numbers are in the order of the numbers they are nearest to (`Rounds.le_of_le`): between
two in the wrong order lies the halfway point of both, and they are neighbours and both even.

**The range ends halfway.**  The greatest double has an odd pattern, so halfway between it and the
number that would come next, rounding goes up, to the pattern of infinity.
-/

namespace Backtrack.Binary64

variable {v v' : ℚ} {i n n' num den num' den' : Nat}

/-! ## Nearest numbers -/

/-- **A pattern whose number is nearest to `v`**, and an even one if another is as near. -/
structure Rounds (v : ℚ) (n : Nat) : Prop where
  nearest : ∀ j, |v - value n| ≤ |v - value j|
  even : ∀ j, j ≠ n → |v - value j| = |v - value n| → n % 2 = 0

/-- The lower of two numbers is nearer up to halfway. -/
theorem abs_sub_le_iff_of_lt {a b : ℚ} (h : a < b) : |v - a| ≤ |v - b| ↔ 2 * v ≤ a + b := by
  have hsquares : (v - b) ^ 2 - (v - a) ^ 2 = (b - a) * (a + b - 2 * v) := by ring
  rw [← sq_le_sq, ← sub_nonneg, hsquares, mul_nonneg_iff_of_pos_left (sub_pos.2 h), sub_nonneg]

/-- …and the higher from there on. -/
theorem abs_sub_le_iff_of_gt {a b : ℚ} (h : a < b) : |v - b| ≤ |v - a| ↔ a + b ≤ 2 * v := by
  have hsquares : (v - a) ^ 2 - (v - b) ^ 2 = (b - a) * (2 * v - (a + b)) := by ring
  rw [← sq_le_sq, ← sub_nonneg, hsquares, mul_nonneg_iff_of_pos_left (sub_pos.2 h), sub_nonneg]

/-- Two numbers as near are at either side. -/
theorem abs_sub_eq_iff_of_ne {a b : ℚ} (h : a ≠ b) : |v - a| = |v - b| ↔ 2 * v = a + b := by
  rcases lt_or_gt_of_ne h with hlt | hgt
  · rw [le_antisymm_iff, abs_sub_le_iff_of_lt hlt, abs_sub_le_iff_of_gt hlt, le_antisymm_iff]
  · rw [le_antisymm_iff, abs_sub_le_iff_of_lt hgt, abs_sub_le_iff_of_gt hgt, le_antisymm_iff,
      add_comm b, and_comm]

/-! ### In order -/

namespace Rounds

/-- **Nearest numbers are in the order of the numbers they are nearest to.** -/
theorem le_of_le (h : Rounds v n) (h' : Rounds v' n') (hle : v ≤ v') : n ≤ n' := by
  by_contra hnot
  have hlt : n' < n := Nat.lt_of_not_le hnot
  have hvalue := value_strictMono hlt
  have hlow := (abs_sub_le_iff_of_gt hvalue).1 (h.nearest n')
  have hhigh := (abs_sub_le_iff_of_lt hvalue).1 (h'.nearest n)
  -- both are halfway between the two, so both patterns are even, and another lies in between
  have hhalfway : 2 * v = value n' + value n := by linarith
  have hhalfway' : 2 * v' = value n' + value n := by linarith
  have heven := h.even n' (Nat.ne_of_lt hlt) ((abs_sub_eq_iff_of_ne hvalue.ne).2 hhalfway)
  have heven' := h'.even n (Nat.ne_of_gt hlt) ((abs_sub_eq_iff_of_ne hvalue.ne).2 hhalfway').symm
  have hbetween : n' + 1 < n := by omega
  have hnearer := (abs_sub_le_iff_of_gt (value_strictMono hbetween)).1 (h.nearest (n' + 1))
  have hstep := value_strictMono (Nat.lt_succ_self n')
  linarith

/-- **Past an odd pattern from halfway on**: a tie goes to the other side. -/
theorem lt_iff_of_odd (h : Rounds v n) (hodd : i % 2 = 1) :
    i < n ↔ value i + value (i + 1) ≤ 2 * v := by
  have hstep := value_strictMono (Nat.lt_succ_self i)
  constructor
  · intro hlt
    have hlow := (abs_sub_le_iff_of_gt (value_strictMono hlt)).1 (h.nearest i)
    have hle : value (i + 1) ≤ value n := value_strictMono.monotone hlt
    linarith
  · intro hle
    by_contra hnot
    have hni : n ≤ i := Nat.le_of_not_lt hnot
    have hvalue : value n ≤ value i := value_strictMono.monotone hni
    have hhigh := (abs_sub_le_iff_of_lt (hvalue.trans_lt hstep)).1 (h.nearest (i + 1))
    have hsame : value n = value i := by linarith
    obtain rfl : n = i := value_strictMono.injective hsame
    have hhalfway : 2 * v = value n + value (n + 1) := by linarith
    have heven := h.even (n + 1) (Nat.succ_ne_self n)
      ((abs_sub_eq_iff_of_ne hstep.ne).2 hhalfway).symm
    omega

end Rounds

/-! ### Between two successive numbers -/

/-- Up to halfway, the lower of two successive numbers is nearest of all. -/
theorem nearest_lower (hlow : value i ≤ v) (hhalf : 2 * v ≤ value i + value (i + 1)) (j : Nat) :
    |v - value i| ≤ |v - value j| := by
  rcases lt_trichotomy j i with hlt | rfl | hgt
  · have hvalue := value_strictMono hlt
    exact (abs_sub_le_iff_of_gt hvalue).2 (by linarith)
  · exact le_rfl
  · have hnext : value (i + 1) ≤ value j := value_strictMono.monotone hgt
    exact (abs_sub_le_iff_of_lt (value_strictMono hgt)).2 (by linarith)

/-- …and from there on, the higher. -/
theorem nearest_upper (hhigh : v ≤ value (i + 1)) (hhalf : value i + value (i + 1) ≤ 2 * v)
    (j : Nat) : |v - value (i + 1)| ≤ |v - value j| := by
  rcases lt_trichotomy j (i + 1) with hlt | rfl | hgt
  · have hprevious : value j ≤ value i := value_strictMono.monotone (Nat.le_of_lt_succ hlt)
    exact (abs_sub_le_iff_of_gt (value_strictMono hlt)).2 (by linarith)
  · exact le_rfl
  · have hvalue := value_strictMono hgt
    exact (abs_sub_le_iff_of_lt hvalue).2 (by linarith)

/-- **Below halfway, rounding goes down.** -/
theorem rounds_down (hlow : value i ≤ v) (hhalf : 2 * v < value i + value (i + 1)) :
    Rounds v i := by
  refine ⟨nearest_lower hlow hhalf.le, fun j hj htie => ?_⟩
  have hhalfway := (abs_sub_eq_iff_of_ne (value_strictMono.injective.ne hj)).1 htie
  -- no other number is as near
  exfalso
  rcases lt_or_gt_of_ne hj with hlt | hgt
  · have hvalue := value_strictMono hlt
    linarith
  · have hnext : value (i + 1) ≤ value j := value_strictMono.monotone hgt
    linarith

/-- **Above halfway, it goes up.** -/
theorem rounds_up (hhigh : v ≤ value (i + 1)) (hhalf : value i + value (i + 1) < 2 * v) :
    Rounds v (i + 1) := by
  refine ⟨nearest_upper hhigh hhalf.le, fun j hj htie => ?_⟩
  have hhalfway := (abs_sub_eq_iff_of_ne (value_strictMono.injective.ne hj)).1 htie
  exfalso
  rcases lt_or_gt_of_ne hj with hlt | hgt
  · have hprevious : value j ≤ value i := value_strictMono.monotone (Nat.le_of_lt_succ hlt)
    linarith
  · have hvalue := value_strictMono hgt
    linarith

/-- **Halfway, it goes to the even one.** -/
theorem rounds_even (hhalf : 2 * v = value i + value (i + 1)) : Rounds v (i + i % 2) := by
  have hstep := value_strictMono (Nat.lt_succ_self i)
  refine ⟨?_, fun _ _ _ => by omega⟩
  rcases Nat.mod_two_eq_zero_or_one i with heven | hodd
  · rw [heven, Nat.add_zero]
    exact nearest_lower (by linarith) hhalf.le
  · rw [hodd]
    exact nearest_upper (by linarith) hhalf.ge

/-- **The part of the step decides** that lies between the lower number and `v`. -/
theorem rounds_of_part {q c t : ℚ} (hc : 0 < c) (hlow : value i = q * c)
    (hhigh : value (i + 1) = (q + 1) * c) (hv : v = (q + t) * c) (ht : 0 ≤ t) (hless : t < 1) :
    (2 * t < 1 → Rounds v i) ∧ (1 < 2 * t → Rounds v (i + 1)) ∧
      (2 * t = 1 → Rounds v (i + i % 2)) := by
  have hpart : 0 ≤ t * c := mul_nonneg ht hc.le
  have hstep : t * c < 1 * c := mul_lt_mul_of_pos_right hless hc
  refine ⟨fun hdown => ?_, fun hup => ?_, fun htie => ?_⟩
  · have hhalf := mul_lt_mul_of_pos_right hdown hc
    exact rounds_down (by linarith) (by linarith)
  · have hhalf := mul_lt_mul_of_pos_right hup hc
    exact rounds_up (by linarith) (by linarith)
  · have hhalf : 2 * t * c = 1 * c := congrArg (· * c) htie
    exact rounds_even (by linarith)

/-! ## What is cut off -/

/-- **The bits that are left fit into a pattern**, and fill it if any are cut off. -/
theorem div_excessBits (units den : Nat) :
    (2 ^ 52 ≤ units / (den * 2 ^ excessBits units den) ∨ excessBits units den = 0) ∧
      units / (den * 2 ^ excessBits units den) < 2 ^ 53 := by
  rw [← Nat.div_div_eq_div_mul, excessBits]
  generalize units / den = w
  have hpos : 0 < 2 ^ (w.log2 - 52) := Nat.two_pow_pos _
  constructor
  · by_cases hshort : w.log2 ≤ 52
    · exact .inr (Nat.sub_eq_zero_of_le hshort)
    · have hw : w ≠ 0 := by
        rintro rfl
        exact hshort (by decide)
      have hlog : 52 + (w.log2 - 52) = w.log2 := by omega
      rw [Nat.le_div_iff_mul_le hpos, ← Nat.pow_add, hlog]
      exact .inl (Nat.log2_self_le hw)
  · have hlog : w.log2 + 1 ≤ 53 + (w.log2 - 52) := by omega
    rw [Nat.div_lt_iff_lt_mul hpos, ← Nat.pow_add]
    exact Nat.lt_of_lt_of_le Nat.lt_log2_self (Nat.pow_le_pow_right (by decide) hlog)

/-- **The pattern of the number nearest to `num / den`**, with no end to the range. -/
def unbounded (num den : Nat) : Nat :=
  let units := num * unitsPerOne
  let k := excessBits units den
  k * binade + roundQuotient units (den * Nat.pow 2 k)

theorem magnitude_eq_min (num den : Nat) : magnitude num den = min infinity (unbounded num den) :=
  rfl

theorem cast_unitsPerOne : (unitsPerOne : ℚ) = 2 ^ 1074 := by
  unfold unitsPerOne
  generalize 1074 = k
  exact Nat.cast_pow 2 k

/-- The two numbers around a fraction of which `k` bits are cut off, and the fraction itself, in
steps from one to the next. -/
theorem steps_around (num : Nat) {k q r : Nat} (hden : 0 < den)
    (hdiv : den * 2 ^ k * q + r = num * unitsPerOne) (hstep : 2 ^ 52 ≤ q ∨ k = 0)
    (hq : q < 2 ^ 53) : ∃ c : ℚ, 0 < c ∧ value (k * binade + q) = q * c ∧
      value (k * binade + q + 1) = (q + 1) * c ∧
      (num / den : ℚ) = (q + r / (den * 2 ^ k)) * c := by
  have hnext : 2 ^ 52 ≤ q + 1 ∨ k = 0 := hstep.imp_left Nat.le_succ_of_le
  have hden' : (den : ℚ) ≠ 0 := Nat.cast_ne_zero.2 hden.ne'
  have hcast : (den * 2 ^ k * q + r : ℚ) = num * 2 ^ 1074 := by
    rw [← cast_unitsPerOne]
    exact_mod_cast hdiv
  refine ⟨2 ^ k / 2 ^ 1074, div_pos (by positivity) (by positivity), ?_, ?_, ?_⟩
  · rw [value_eq_units_div, units_append hstep hq.le, Nat.cast_mul, Nat.cast_pow, Nat.cast_ofNat,
      mul_div_assoc]
  · rw [Nat.add_assoc, value_eq_units_div, units_append hnext hq, Nat.cast_mul, Nat.cast_pow,
      Nat.cast_ofNat, mul_div_assoc, Nat.cast_succ]
  · have hscale : (den * 2 ^ k : ℚ) ≠ 0 := mul_ne_zero hden' (by positivity)
    have hwhole : (q + r / (den * 2 ^ k) : ℚ) = num * 2 ^ 1074 / (den * 2 ^ k) := by
      rw [← hcast, add_div, mul_div_cancel_left₀ _ hscale]
    rw [hwhole, div_mul_div_comm, div_eq_div_iff hden' (mul_ne_zero hscale (by positivity))]
    generalize (2 : ℚ) ^ 1074 = least
    ring

/-- **It is the nearest.** -/
theorem rounds_unbounded (num : Nat) (hden : 0 < den) :
    Rounds (num / den) (unbounded num den) := by
  let k := excessBits (num * unitsPerOne) den
  let q := num * unitsPerOne / (den * 2 ^ k)
  let r := num * unitsPerOne % (den * 2 ^ k)
  have hunbounded : unbounded num den = k * binade +
      if 2 * r < den * 2 ^ k then q else if den * 2 ^ k < 2 * r then q + 1 else q + q % 2 := rfl
  have hwhole : 0 < den * 2 ^ k := Nat.mul_pos hden (Nat.two_pow_pos k)
  obtain ⟨hstep, hq⟩ : (2 ^ 52 ≤ q ∨ k = 0) ∧ q < 2 ^ 53 := div_excessBits (num * unitsPerOne) den
  obtain ⟨c, hc, hlow, hhigh, hv⟩ :=
    steps_around num hden (Nat.div_add_mod (num * unitsPerOne) (den * 2 ^ k)) hstep hq
  -- the part of the step that is cut off is `r` of `den * 2 ^ k`
  have hcut : (0 : ℚ) < den * 2 ^ k := by exact_mod_cast hwhole
  have hpart : (r / (den * 2 ^ k) : ℚ) < 1 := by
    refine (div_lt_one hcut).2 ?_
    exact_mod_cast Nat.mod_lt (num * unitsPerOne) hwhole
  obtain ⟨hdown, hup, htie⟩ :=
    rounds_of_part hc hlow hhigh hv (div_nonneg (Nat.cast_nonneg r) hcut.le) hpart
  have hbelow : 2 * r < den * 2 ^ k ↔ (2 * (r / (den * 2 ^ k)) : ℚ) < 1 := by
    rw [← mul_div_assoc, div_lt_one hcut]
    exact_mod_cast Iff.rfl
  have habove : den * 2 ^ k < 2 * r ↔ (1 : ℚ) < 2 * (r / (den * 2 ^ k)) := by
    rw [← mul_div_assoc, one_lt_div hcut]
    exact_mod_cast Iff.rfl
  rw [hunbounded]
  by_cases hless : 2 * r < den * 2 ^ k
  · rw [if_pos hless]
    exact hdown (hbelow.1 hless)
  rw [if_neg hless]
  by_cases hmore : den * 2 ^ k < 2 * r
  · rw [if_pos hmore, ← Nat.add_assoc]
    exact hup (habove.1 hmore)
  · have hparity : q % 2 = (k * binade + q) % 2 := by
      rw [show binade = 2 ^ 52 from rfl]
      omega
    rw [if_neg hmore, ← Nat.add_assoc, hparity]
    exact htie (le_antisymm (not_lt.1 (mt habove.2 hmore)) (not_lt.1 (mt hbelow.2 hless)))

/-! ## The end of the range -/

/-- **Infinity is reached halfway** between the greatest double and the number that would come
next. -/
theorem Rounds.infinity_le_iff (h : Rounds v n) : infinity ≤ n ↔ 2 ^ 1024 - 2 ^ 970 ≤ v := by
  have hlast : infinity - 1 < n ↔ infinity ≤ n := by
    have hpos : 0 < infinity := by decide
    omega
  have hnext : value (infinity - 1 + 1) = 2 ^ 1024 := value_infinity
  have hsplit : (2 : ℚ) ^ 971 = 2 * 2 ^ 970 := pow_succ' 2 970
  rw [← hlast, h.lt_iff_of_odd (by decide), value_greatest, hnext, hsplit]
  generalize (2 : ℚ) ^ 1024 = beyond
  generalize (2 : ℚ) ^ 970 = half
  constructor <;> intro hle <;> linarith

theorem magnitude_eq_infinity_iff (num : Nat) (hden : 0 < den) :
    magnitude num den = infinity ↔ 2 ^ 1024 - 2 ^ 970 ≤ (num / den : ℚ) := by
  rw [magnitude_eq_min, min_eq_left_iff]
  exact (rounds_unbounded num hden).infinity_le_iff

/-- **Magnitudes are in the order of the fractions**, those out of range included. -/
theorem magnitude_le (hden : 0 < den) (hden' : 0 < den') (h : (num / den : ℚ) ≤ num' / den') :
    magnitude num den ≤ magnitude num' den' := by
  rw [magnitude_eq_min, magnitude_eq_min]
  exact min_le_min_left _ ((rounds_unbounded num hden).le_of_le (rounds_unbounded num' hden') h)

/-! ## Among all doubles -/

/-- **The number of `d` without its sign is nearest to `v`** among those of all finite doubles, and
its significand is even if another is as near. -/
structure NearestFinite (v : ℚ) (d : Binary64) : Prop where
  finite : d.IsFinite
  nearest : ∀ other : Binary64, other.IsFinite → |v - value d.pattern| ≤ |v - other.toRat|
  even : ∀ other : Binary64, other.IsFinite → other.toRat ≠ value d.pattern →
    |v - other.toRat| = |v - value d.pattern| → significand d.pattern % 2 = 0

/-- A negative number is no nearer to a positive one than the same without its sign, and as near
only to zero, or if it is zero. -/
theorem abs_sub_le_abs_sub_neg {a : ℚ} (hv : 0 ≤ v) (ha : 0 ≤ a) :
    |v - a| ≤ |v - -a| ∧ (|v - -a| = |v - a| → v = 0 ∨ a = 0) := by
  have hsquares : (v - -a) ^ 2 - (v - a) ^ 2 = 4 * (v * a) := by ring
  rw [← sq_le_sq, ← sub_nonneg, hsquares, ← sq_eq_sq_iff_abs_eq_abs, ← sub_eq_zero, hsquares]
  refine ⟨by positivity, fun h => ?_⟩
  exact mul_eq_zero.1 ((mul_eq_zero_iff_left four_ne_zero).1 h)

theorem abs_sub_value_le (hv : 0 ≤ v) (d : Binary64) : |v - value d.pattern| ≤ |v - d.toRat| := by
  obtain hsame | hopposite := d.toRat_eq_or
  · rw [hsame]
  · rw [hopposite]
    exact (abs_sub_le_abs_sub_neg hv (value_nonneg _)).1

/-- Zero is nearest to zero only. -/
theorem Rounds.value_eq_zero (h : Rounds 0 n) : value n = 0 := by
  have hle := h.nearest 0
  rwa [value_zero, sub_zero, abs_zero, abs_nonpos_iff, zero_sub, neg_eq_zero] at hle

/-- **Negative numbers and those beyond the last do not matter** to what is nearest. -/
theorem Rounds.nearestFinite {d : Binary64} (h : Rounds v d.pattern) (hv : 0 ≤ v)
    (hfinite : d.IsFinite) : NearestFinite v d where
  finite := hfinite
  nearest other _ := (h.nearest other.pattern).trans (abs_sub_value_le hv other)
  even other _ hne htie := by
    rw [significand_mod_two]
    by_cases hpattern : other.pattern = d.pattern
    · -- the same number with the other sign is as near only if that is zero, and then no other
      obtain hsame | hopposite := other.toRat_eq_or
      · exact absurd (hsame.trans (congrArg value hpattern)) hne
      · rw [hopposite, hpattern] at hne htie
        have hzero : value d.pattern = 0 := by
          obtain rfl | hzero := (abs_sub_le_abs_sub_neg hv (value_nonneg _)).2 htie
          · exact h.value_eq_zero
          · exact hzero
        exact absurd (by rw [hzero, neg_zero]) hne
    · refine h.even other.pattern hpattern (le_antisymm ?_ (h.nearest other.pattern))
      exact (abs_sub_value_le hv other).trans htie.le

/-! ## Doubles -/

section OfFraction

variable (negative : Bool) (num den : Nat)

/-- **The sign is apart from the magnitude.** -/
theorem toNat_bits_ofFraction : (ofFraction negative num den).bits.toNat
    = 2 ^ 63 * negative.toNat + magnitude num den ∧ magnitude num den < 2 ^ 63 := by
  have hle : magnitude num den ≤ infinity := min_le_left _ _
  have hlt : magnitude num den < 2 ^ 63 := hle.trans_lt (by decide)
  refine ⟨?_, hlt⟩
  have hsign : (if negative then signBit else 0) = 2 ^ 63 * negative.toNat := by
    rcases negative with _ | _ <;> rfl
  have hfits : 2 ^ 63 * negative.toNat + magnitude num den < 2 ^ 64 := by
    have hnegative := negative.toNat_le
    omega
  rw [ofFraction, hsign]
  exact UInt64.toNat_ofNat_of_lt' hfits

theorem pattern_ofFraction : (ofFraction negative num den).pattern = magnitude num den := by
  obtain ⟨hbits, hlt⟩ := toNat_bits_ofFraction negative num den
  rw [pattern, hbits, Nat.mul_add_mod, Nat.mod_eq_of_lt hlt]

theorem isNegative_ofFraction : (ofFraction negative num den).isNegative = negative := by
  obtain ⟨hbits, hlt⟩ := toNat_bits_ofFraction negative num den
  rw [isNegative, hbits, Nat.testBit_two_pow_mul_add _ hlt]
  rcases negative with _ | _ <;> rfl

end OfFraction

/-- **The double of a sign and a number without one**: it has the sign, a zero too; its magnitude is
that of the nearest finite double, or from halfway beyond the last on, of infinity. -/
structure CorrectlyRounded (negative : Bool) (v : ℚ) (d : Binary64) : Prop where
  isNegative_eq : d.isNegative = negative
  pattern_eq_infinity_iff : d.pattern = infinity ↔ 2 ^ 1024 - 2 ^ 970 ≤ v
  nearestFinite : v < 2 ^ 1024 - 2 ^ 970 → NearestFinite v d

theorem correctlyRounded_ofFraction (negative : Bool) (num : Nat) (hden : 0 < den) :
    CorrectlyRounded negative (num / den) (ofFraction negative num den) where
  isNegative_eq := isNegative_ofFraction negative num den
  pattern_eq_infinity_iff := by
    rw [pattern_ofFraction]
    exact magnitude_eq_infinity_iff num hden
  nearestFinite hlt := by
    have hrounds := rounds_unbounded num hden
    have hlast : unbounded num den < infinity :=
      Nat.lt_of_not_le (mt hrounds.infinity_le_iff.1 (not_le_of_gt hlt))
    have hpattern : (ofFraction negative num den).pattern = unbounded num den := by
      rw [pattern_ofFraction, magnitude_eq_min, min_eq_right hlast.le]
    rw [← hpattern] at hrounds hlast
    exact hrounds.nearestFinite (by positivity) ((isFinite_iff _).2 hlast)

end Backtrack.Binary64
