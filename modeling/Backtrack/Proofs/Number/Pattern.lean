import Mathlib.Algebra.Order.Field.Rat
import Mathlib.Order.Monotone.Basic
import Mathlib.Tactic.FieldSimp
import Mathlib.Tactic.Linarith
import Mathlib.Tactic.Ring
import Backtrack.Number.Binary64

/-!
# Proofs/Number/Pattern — the number a pattern of 64 bits stands for

    sign    exponent e      fraction f            number, without the sign
     1 bit   11 bits         52 bits       e = 0   f / 2^52 · 2^-1022
                                           e > 0   (1 + f / 2^52) · 2^(e - 1023)

This is the format's own reading of a pattern (`value`).  Measured in units of `2^-1074` it is a
natural number (`units`), and *successive patterns are successive numbers*: within one exponent the
steps are equal, and the last step of one exponent leads to the first number of the next
(`units_append`).  So the order of patterns is the order of numbers, subnormal ones included.

The same formula goes on beyond the greatest double; there it stands for no double, but for the
numbers that would come next.  The first of them has the pattern of infinity.
-/

namespace Backtrack.Binary64

/-! ## The fields of a pattern -/

/-- The pattern without its sign. -/
def pattern (d : Binary64) : Nat := d.bits.toNat % 2 ^ 63

/-- Whether the sign bit is set. -/
def isNegative (d : Binary64) : Bool := d.bits.toNat.testBit 63

/-- The exponent, as it is stored. -/
def exponentField (n : Nat) : Nat := n / 2 ^ 52

/-- The fraction, as it is stored. -/
def fractionField (n : Nat) : Nat := n % 2 ^ 52

/-- The fraction with the bit in front of it, which is not stored. -/
def significand (n : Nat) : Nat :=
  if exponentField n = 0 then fractionField n else 2 ^ 52 + fractionField n

/-- **The number a pattern stands for**, without its sign. -/
def value (n : Nat) : ℚ :=
  if exponentField n = 0 then (fractionField n : ℚ) / 2 ^ 52 * 2 ^ (-1022 : ℤ)
  else (1 + (fractionField n : ℚ) / 2 ^ 52) * 2 ^ ((exponentField n : ℤ) - 1023)

/-- A double that stands for a number. -/
def IsFinite (d : Binary64) : Prop := exponentField d.pattern ≠ 0x7ff

/-- **The number a finite double stands for.** -/
def toRat (d : Binary64) : ℚ := if d.isNegative then -value d.pattern else value d.pattern

theorem toRat_eq_or (d : Binary64) : d.toRat = value d.pattern ∨ d.toRat = -value d.pattern := by
  rw [toRat]
  split
  · exact .inr rfl
  · exact .inl rfl

/-- **A double is its sign and its pattern.** -/
theorem eq_of_pattern_eq {d d' : Binary64} (hsign : d.isNegative = d'.isNegative)
    (hpattern : d.pattern = d'.pattern) : d = d' := by
  have hbits : ∀ d : Binary64, d.bits.toNat = 2 ^ 63 * d.isNegative.toNat + d.pattern := by
    intro d
    have hlt : d.bits.toNat < 2 ^ 64 := d.bits.toNat_lt
    rw [isNegative, pattern, Nat.toNat_testBit]
    omega
  refine congrArg Binary64.mk (UInt64.toNat_inj.1 ?_)
  rw [hbits, hbits, hsign, hpattern]

theorem isFinite_iff (d : Binary64) : d.IsFinite ↔ d.pattern < infinity := by
  have hlt : d.pattern < 2 ^ 63 := Nat.mod_lt _ (by positivity)
  have hinfinity : infinity = 2047 * 2 ^ 52 := rfl
  unfold IsFinite exponentField
  omega

/-- A pattern is even exactly if its significand is. -/
theorem significand_mod_two (n : Nat) : significand n % 2 = n % 2 := by
  unfold significand fractionField
  split <;> omega

/-! ## In units of the least positive double -/

/-- How many of the least positive doubles make the number of a pattern. -/
def units (n : Nat) : Nat := significand n * 2 ^ (exponentField n - 1)

/-- **Within an exponent the steps are equal**, up to and including the first number of the next. -/
theorem units_append {k q : Nat} (h : 2 ^ 52 ≤ q ∨ k = 0) (hq : q ≤ 2 ^ 53) :
    units (k * binade + q) = q * 2 ^ k := by
  have hbinade : binade = 2 ^ 52 := rfl
  rw [hbinade, units, significand, fractionField, exponentField]
  rcases Nat.lt_or_ge q (2 ^ 52) with hsmall | hlarge
  · obtain rfl : k = 0 := h.resolve_left (Nat.not_le_of_lt hsmall)
    have hexponent : (0 * 2 ^ 52 + q) / 2 ^ 52 = 0 := by omega
    have hfraction : (0 * 2 ^ 52 + q) % 2 ^ 52 = q := by omega
    rw [hexponent, hfraction, if_pos rfl]
  · rcases Nat.lt_or_eq_of_le hq with hless | rfl
    · have hexponent : (k * 2 ^ 52 + q) / 2 ^ 52 = k + 1 := by omega
      have hfraction : 2 ^ 52 + (k * 2 ^ 52 + q) % 2 ^ 52 = q := by omega
      rw [hexponent, if_neg (Nat.succ_ne_zero k), hfraction, Nat.add_sub_cancel]
    · have hexponent : (k * 2 ^ 52 + 2 ^ 53) / 2 ^ 52 = k + 1 + 1 := by omega
      have hfraction : (k * 2 ^ 52 + 2 ^ 53) % 2 ^ 52 = 0 := by omega
      rw [hexponent, if_neg (Nat.succ_ne_zero _), hfraction, Nat.add_sub_cancel]
      ring

/-- Every pattern is a step of some exponent. -/
theorem exists_step (n : Nat) : ∃ k q, n = k * binade + q ∧ (2 ^ 52 ≤ q ∨ k = 0) ∧ q < 2 ^ 53 := by
  have hbinade : binade = 2 ^ 52 := rfl
  rw [hbinade]
  refine ⟨n / 2 ^ 52 - 1, n - (n / 2 ^ 52 - 1) * 2 ^ 52, ?_, ?_, ?_⟩ <;> omega

/-- **The order of patterns is the order of numbers.** -/
theorem units_strictMono : StrictMono units := by
  refine strictMono_nat_of_lt_succ fun n => ?_
  obtain ⟨k, q, rfl, hstep, hq⟩ := exists_step n
  have hnext : 2 ^ 52 ≤ q + 1 ∨ k = 0 := hstep.imp_left Nat.le_succ_of_le
  rw [Nat.add_assoc, units_append hstep (Nat.le_of_lt hq), units_append hnext hq]
  exact Nat.mul_lt_mul_of_pos_right (Nat.lt_succ_self q) (Nat.two_pow_pos k)

/-- **The number of a pattern, in units.** -/
theorem value_eq_units_div (n : Nat) : value n = units n / 2 ^ 1074 := by
  have hsplit : (2 : ℚ) ^ 1074 = 2 ^ 52 * 2 ^ 1022 := by rw [← pow_add]
  rw [value, units, significand, hsplit]
  rcases hexponent : exponentField n with _ | k
  · have hscale : (2 : ℚ) ^ (-1022 : ℤ) = (2 ^ 1022)⁻¹ := by rw [zpow_neg, zpow_ofNat]
    rw [if_pos rfl, if_pos rfl, hscale, ← div_eq_mul_inv, div_div, Nat.zero_sub, pow_zero, mul_one]
  · have hscale : (2 : ℚ) ^ (((k + 1 : ℕ) : ℤ) - 1023) = 2 ^ k / 2 ^ 1022 := by
      have hexponent : ((k + 1 : ℕ) : ℤ) - 1023 = (k : ℤ) - (1022 : ℕ) := by
        push_cast
        ring
      rw [hexponent, zpow_sub₀ two_ne_zero, zpow_natCast, zpow_natCast]
    rw [if_neg (Nat.succ_ne_zero k), if_neg (Nat.succ_ne_zero k), hscale, Nat.add_sub_cancel]
    have hone : 1 + (fractionField n : ℚ) / 2 ^ 52 = (2 ^ 52 + fractionField n) / 2 ^ 52 := by
      rw [add_div, div_self (by positivity)]
    rw [hone, div_mul_div_comm]
    push_cast
    rfl

theorem value_strictMono : StrictMono value := by
  intro n n' h
  rw [value_eq_units_div, value_eq_units_div]
  have hunits : (units n : ℚ) < units n' := Nat.cast_lt.2 (units_strictMono h)
  exact div_lt_div_of_pos_right hunits (by positivity)

theorem value_zero : value 0 = 0 := by
  have hunits : units 0 = 0 := rfl
  rw [value_eq_units_div, hunits, Nat.cast_zero, zero_div]

theorem value_nonneg (n : Nat) : 0 ≤ value n := by
  rw [value_eq_units_div]
  exact div_nonneg (Nat.cast_nonneg _) (by positivity)

/-! ## The end of the range -/

/-- Far out, where the steps are whole numbers. -/
theorem value_append {k q : Nat} (h : 2 ^ 52 ≤ q) (hq : q ≤ 2 ^ 53) :
    value ((1074 + k) * binade + q) = q * 2 ^ k := by
  rw [value_eq_units_div, units_append (.inl h) hq, div_eq_iff (by positivity), Nat.cast_mul,
    Nat.cast_pow, Nat.cast_ofNat, mul_assoc, ← pow_add, Nat.add_comm]

/-- The number that would come after the greatest. -/
theorem value_infinity : value infinity = 2 ^ 1024 := by
  have hinfinity : infinity = (1074 + 971) * binade + 2 ^ 53 := rfl
  rw [hinfinity, value_append (by decide) (by decide), Nat.cast_pow, Nat.cast_ofNat, ← pow_add]

/-- The greatest double. -/
theorem value_greatest : value (infinity - 1) = 2 ^ 1024 - 2 ^ 971 := by
  have hgreatest : infinity - 1 = (1074 + 971) * binade + (2 ^ 53 - 1) := rfl
  rw [hgreatest, value_append (by decide) (by decide), Nat.cast_sub (by decide), Nat.cast_pow,
    Nat.cast_ofNat, Nat.cast_one, sub_mul, one_mul, ← pow_add]

end Backtrack.Binary64
