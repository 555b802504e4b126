import Spreadsheet.Proofs.Number.ReadBack
import Spreadsheet.Proofs.Number.Whole

/-!
# Numerals beyond the finite numbers

A numeral has an exact value, and it is refused exactly when that value is rounded to infinity: when
it is not below the midpoint between the largest finite magnitude and the power of two that would
come next.
-/

namespace Spreadsheet

namespace Binary64

variable {num den : Nat}

/-- The least magnitude that is rounded to infinity, half a step above the largest finite one. -/
def overflow : ℚ := 2 ^ 1024 - 2 ^ 970

theorem two_mul_overflow : 2 * overflow = (2 ^ 54 - 1) * 2 ^ 971 := by
  rw [overflow, show 1024 = 54 + 970 from rfl, pow_add, pow_succ 2 970]
  generalize (2 : ℚ) ^ 970 = x
  ring

/-- The last midpoint below infinity's code, in units. -/
theorem units_pred_infinityCode_add :
    units (infinityCode - 1) + units infinityCode = (2 ^ 54 - 1) * (2 ^ 971 * unitsPerOne) := by
  have hlast : infinityCode - 1 = (2045 + 1) * 2 ^ 52 + (2 ^ 52 - 1) := rfl
  have hinfinity : infinityCode = (2046 + 1) * 2 ^ 52 + 0 := rfl
  have hbits : 971 + unitBits = 2045 := rfl
  rw [hlast, units_normal 2045 (by decide), hinfinity, units_normal 2046 (Nat.two_pow_pos 52),
    Nat.pow_succ, unitsPerOne_eq, ← Nat.pow_add, hbits]
  omega

/-- The threshold of overflow lies midway between the last codes. -/
theorem overflow_mul_unitsPerOne :
    2 * (overflow * unitsPerOne) = (units (infinityCode - 1) + units infinityCode : ℕ) := by
  rw [units_pred_infinityCode_add, ← mul_assoc, two_mul_overflow, mul_assoc, Nat.cast_mul,
    Nat.cast_mul, Nat.cast_pow]
  norm_num only [Nat.cast_ofNat]

/-- A quotient is rounded to infinity's code if it is not below the last midpoint. -/
theorem nearestCode_eq_infinityCode_iff (hden : 0 < den) :
    nearestCode num den = infinityCode ↔
      (units (infinityCode - 1) + units infinityCode) * den ≤ 2 * (num * unitsPerOne) := by
  have h := rounds_unclamped (num * unitsPerOne) hden
  rw [nearestCode_eq_min]
  generalize shiftOf (num * unitsPerOne) den * 2 ^ 52 +
    significandOf (num * unitsPerOne) den = c at h
  rw [min_eq_right_iff]
  constructor
  · intro hle
    refine (Nat.mul_le_mul_right den ?_).trans h.lower
    exact Nat.add_le_add (units_strictMono.monotone (by omega)) (units_strictMono.monotone hle)
  · intro hmid
    by_contra hlt
    have hmono : units (c + 1) ≤ units infinityCode := units_strictMono.monotone (by omega)
    have hlast : units c ≤ units (infinityCode - 1) := units_strictMono.monotone (by omega)
    have hsum := Nat.le_of_mul_le_mul_right (hmid.trans h.upper) hden
    -- The quotient is the midpoint above the largest finite magnitude, whose code is odd.
    obtain rfl : c = infinityCode - 1 := units_strictMono.injective (by omega)
    have hstrict := (h.odd (by decide)).2
    rw [show infinityCode - 1 + 1 = infinityCode from rfl] at hstrict
    omega

/-- A quotient is rounded to infinity's code exactly from the threshold of overflow on. -/
theorem nearestCode_eq_infinityCode_iff_overflow (hden : 0 < den) :
    nearestCode num den = infinityCode ↔ overflow ≤ (num : ℚ) / den := by
  have hpos : (0 : ℚ) < den := Nat.cast_pos.mpr hden
  rw [nearestCode_eq_infinityCode_iff hden, ← Nat.cast_le (α := ℚ), Nat.cast_mul,
    ← overflow_mul_unitsPerOne, le_div_iff₀ hpos]
  push_cast
  rw [mul_assoc, mul_right_comm, mul_le_mul_iff_right₀ two_pos,
    mul_le_mul_iff_left₀ cast_unitsPerOne_pos]

theorem overflow_pos : 0 < overflow :=
  sub_pos.mpr (pow_lt_pow_right₀ one_lt_two (by decide))

theorem one_le_overflow : 1 ≤ overflow := by
  have hdouble := two_mul_overflow
  have hone : (1 : ℚ) ≤ 2 ^ 971 := one_le_pow₀ one_le_two
  generalize (2 : ℚ) ^ 971 = x at hdouble hone
  linarith

theorem overflow_le_pow : overflow ≤ 10 ^ 400 := by
  have hbase : (2 : ℚ) ^ 64 ≤ 10 ^ 25 := by norm_num
  calc overflow ≤ 2 ^ 1024 := sub_le_self _ (by positivity)
    _ = (2 ^ 64) ^ 16 := by rw [← pow_mul]
    _ ≤ (10 ^ 25) ^ 16 := pow_le_pow_left₀ (by positivity) hbase 16
    _ = 10 ^ 400 := by rw [← pow_mul]

end Binary64

open Binary64

namespace Numeral

variable {n : Numeral} {m : Nat} {e : Int}

/-- The exact value of a numeral. -/
def exactValue (n : Numeral) : ℚ := n.significand * 10 ^ n.scale

/-- A decimal whose first digit stands far to the right is less than one. -/
theorem mul_zpow_lt_one (h : e + (Nat.toDigits 10 m).length < -400) : (m : ℚ) * 10 ^ e < 1 := by
  have hm : (m : ℚ) < 10 ^ (Nat.toDigits 10 m).length := by exact_mod_cast lt_pow_length m
  calc (m : ℚ) * 10 ^ e < 10 ^ (Nat.toDigits 10 m).length * 10 ^ e :=
        mul_lt_mul_of_pos_right hm (by positivity)
    _ = 10 ^ (e + (Nat.toDigits 10 m).length) := by
        rw [zpow_add₀ (by norm_num), zpow_natCast, mul_comm]
    _ ≤ 10 ^ (0 : ℤ) := zpow_le_zpow_right₀ (by norm_num) (by omega)
    _ = 1 := zpow_zero _

/-- A decimal whose first digit stands far to the left is beyond all finite magnitudes. -/
theorem overflow_le_mul_zpow (hm : 0 < m) (h : 400 < e + (Nat.toDigits 10 m).length) :
    overflow ≤ (m : ℚ) * 10 ^ e := by
  have hle : (10 : ℚ) ^ ((Nat.toDigits 10 m).length - 1) ≤ m := by
    exact_mod_cast pow_length_pred_le hm
  have hlength := Nat.length_toDigits_pos (b := 10) (n := m)
  calc overflow ≤ 10 ^ (400 : ℤ) := overflow_le_pow
    _ ≤ 10 ^ (((Nat.toDigits 10 m).length - 1 : ℕ) + e) :=
        zpow_le_zpow_right₀ (by norm_num) (by omega)
    _ = 10 ^ ((Nat.toDigits 10 m).length - 1) * 10 ^ e := by
        rw [zpow_add₀ (by norm_num), zpow_natCast]
    _ ≤ m * 10 ^ e := mul_le_mul_of_nonneg_right hle (by positivity)

/-- A decimal is rounded to infinity's code if it is not below the last midpoint; the guards against
very large and very small values decide the same. -/
theorem nearestScaled_eq_infinityCode_iff :
    nearestScaled m e = infinityCode ↔ overflow ≤ (m : ℚ) * 10 ^ e := by
  have hzero : (0 : Nat) ≠ infinityCode := by decide
  simp only [nearestScaled]
  split
  · rename_i hsmall
    refine iff_of_false hzero (not_le.mpr ?_)
    rcases hsmall with rfl | hsmall
    · simpa using overflow_pos
    · exact (mul_zpow_lt_one hsmall).trans_le one_le_overflow
  · rename_i hsmall
    rw [not_or] at hsmall
    split
    · rename_i hlarge
      exact iff_of_true rfl (overflow_le_mul_zpow (Nat.pos_of_ne_zero hsmall.1) hlarge)
    · split
      · rename_i hneg
        obtain ⟨k, rfl⟩ : ∃ k : ℕ, e = -k := ⟨e.natAbs, by omega⟩
        rw [Nat.pow_eq, nearestCode_eq_infinityCode_iff_overflow (Nat.pow_pos (by decide)),
          Int.natAbs_neg, Int.natAbs_natCast, zpow_neg, zpow_natCast, Nat.cast_pow,
          Nat.cast_ofNat, div_eq_mul_inv]
      · rename_i hneg
        obtain ⟨k, rfl⟩ : ∃ k : ℕ, e = k := ⟨e.natAbs, by omega⟩
        rw [Nat.pow_eq, nearestCode_eq_infinityCode_iff_overflow Nat.one_pos, Int.natAbs_natCast,
          zpow_natCast, Nat.cast_mul, Nat.cast_pow, Nat.cast_ofNat, Nat.cast_one, div_one]

/-- No numeral is rounded beyond infinity's code. -/
theorem nearestScaled_le (m : Nat) (e : Int) : nearestScaled m e ≤ infinityCode := by
  simp only [nearestScaled]
  split
  · exact Nat.zero_le _
  · split
    · exact le_rfl
    · split <;> exact nearestCode_le _ _

/-- A numeral has no finite number as its value exactly if its exact value is rounded to
infinity. -/
theorem value?_eq_none_iff {negative : Bool} :
    n.value? negative = none ↔ overflow ≤ n.exactValue := by
  have hinfinite : (ofCode negative infinityCode).isFinite = false := by
    cases negative <;> decide +kernel
  rw [exactValue, ← nearestScaled_eq_infinityCode_iff, value?]
  rcases Nat.lt_or_eq_of_le (nearestScaled_le n.significand n.scale) with hlt | heq
  · simp only [(of_ofCode negative hlt).2.2, if_true, reduceCtorEq, false_iff]
    exact hlt.ne
  · simp [heq, hinfinite]

end Numeral

end Spreadsheet
