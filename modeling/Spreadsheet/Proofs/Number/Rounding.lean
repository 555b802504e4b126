import Mathlib.Algebra.Group.Nat.Defs
import Mathlib.Order.Monotone.Basic
import Spreadsheet.Number.Binary64

/-!
# Rounding to the nearest magnitude

Neighbouring magnitudes lie a power of two apart, and the midpoints between them divide the
quotients: a quotient rounds to a code if it lies between the midpoints on both sides, strictly if
the code is odd. At most one code is rounded to, and rounding finds it.
-/

namespace Spreadsheet.Binary64

variable {c d num den shift m : Nat}

theorem units_of_lt (h : c < 2 ^ 52) : units c = c := if_pos h

/-- A normal code is a mantissa times a power of two. -/
theorem units_of_ge (h : 2 ^ 52 ≤ c) :
    units c = (2 ^ 52 + c % 2 ^ 52) * 2 ^ (c / 2 ^ 52 - 1) := by
  have hunits : units c = (2 ^ 52 + c % 2 ^ 52) <<< (c >>> 52 - 1) := if_neg (Nat.not_lt.mpr h)
  rw [hunits, Nat.shiftLeft_eq, Nat.shiftRight_eq_div_pow]

/-- The distance from a magnitude to the next. -/
def gap (c : Nat) : Nat := 2 ^ (c / 2 ^ 52 - 1)

theorem gap_pos (c : Nat) : 0 < gap c := Nat.two_pow_pos _

/-- A code from `2 ^ 52` on has a significand and a shift. -/
theorem units_normal (k : Nat) (hm : m < 2 ^ 52) :
    units ((k + 1) * 2 ^ 52 + m) = (2 ^ 52 + m) * 2 ^ k := by
  have hdiv : ((k + 1) * 2 ^ 52 + m) / 2 ^ 52 = k + 1 := by omega
  have hmod : ((k + 1) * 2 ^ 52 + m) % 2 ^ 52 = m := by omega
  rw [units_of_ge (by omega), hdiv, hmod, Nat.add_sub_cancel]

/-- The next magnitude is the distance away. -/
theorem units_succ (c : Nat) : units (c + 1) = units c + gap c := by
  by_cases hsmall : c + 1 < 2 ^ 52
  · have hgap : gap c = 1 := by
      rw [gap, Nat.div_eq_of_lt (by omega), Nat.zero_sub, Nat.pow_zero]
    rw [units_of_lt hsmall, units_of_lt (by omega), hgap]
  · by_cases hc : c < 2 ^ 52
    · obtain rfl : c = 2 ^ 52 - 1 := by omega
      decide +kernel
    · obtain ⟨k, m, hm, rfl⟩ : ∃ k m, m < 2 ^ 52 ∧ c = (k + 1) * 2 ^ 52 + m :=
        ⟨c / 2 ^ 52 - 1, c % 2 ^ 52, by omega, by omega⟩
      have hgap : gap ((k + 1) * 2 ^ 52 + m) = 2 ^ k := by
        rw [gap, show ((k + 1) * 2 ^ 52 + m) / 2 ^ 52 = k + 1 by omega, Nat.add_sub_cancel]
      rw [hgap, units_normal k hm]
      by_cases hlast : m + 1 < 2 ^ 52
      · rw [Nat.add_assoc, units_normal k hlast, ← Nat.add_assoc, Nat.add_mul, Nat.one_mul]
      · -- The significand is full, and the next one is the first at the next shift.
        obtain rfl : m = 2 ^ 52 - 1 := by omega
        have hnext := units_normal (k + 1) (Nat.two_pow_pos 52)
        rw [show (k + 1) * 2 ^ 52 + (2 ^ 52 - 1) + 1 = (k + 1 + 1) * 2 ^ 52 + 0 by omega, hnext,
          Nat.pow_succ]
        omega

/-- A significand of at most fifty-three bits at a shift. -/
theorem units_shift (hm : m ≤ 2 ^ 53) (h : shift = 0 ∨ 2 ^ 52 ≤ m) :
    units (shift * 2 ^ 52 + m) = m * 2 ^ shift := by
  by_cases hsmall : m < 2 ^ 52
  · obtain rfl : shift = 0 := by omega
    rw [Nat.zero_mul, Nat.zero_add, units_of_lt hsmall, Nat.pow_zero, Nat.mul_one]
  · rcases Nat.lt_or_eq_of_le hm with hlt | rfl
    · obtain ⟨d, rfl⟩ := Nat.exists_eq_add_of_le (Nat.le_of_not_lt hsmall)
      have hunits := units_normal shift (show d < 2 ^ 52 by omega)
      rwa [Nat.succ_mul, Nat.add_assoc] at hunits
    · have hunits := units_normal (shift + 1) (Nat.two_pow_pos 52)
      rw [show (shift + 1 + 1) * 2 ^ 52 + 0 = shift * 2 ^ 52 + 2 ^ 53 by omega] at hunits
      rw [hunits, Nat.pow_succ]
      omega

theorem units_lt_succ (c : Nat) : units c < units (c + 1) := by
  rw [units_succ]
  exact Nat.lt_add_of_pos_right (gap_pos c)

/-- Larger codes have larger magnitudes. -/
theorem units_strictMono : StrictMono units := strictMono_nat_of_lt_succ units_lt_succ

theorem units_zero : units 0 = 0 := units_of_lt (Nat.two_pow_pos 52)

theorem units_pos (h : 0 < c) : 0 < units c := units_zero ▸ units_strictMono h

/-- The magnitude after that of a significand is a step of its shift away, or more. -/
theorem le_units_shift_succ (hm : m ≤ 2 ^ 53) (h : shift = 0 ∨ 2 ^ 52 ≤ m) :
    m * 2 ^ shift + 2 ^ shift ≤ units (shift * 2 ^ 52 + m + 1) := by
  have hgap : 2 ^ shift ≤ gap (shift * 2 ^ 52 + m) := by
    rw [gap]
    exact Nat.pow_le_pow_right Nat.zero_lt_two (by omega)
  rw [units_succ, units_shift hm h]
  exact Nat.add_le_add_left hgap _

/-- Unless the significand is the first at its shift, the magnitude before is a step away. -/
theorem units_shift_pred (hm : m ≤ 2 ^ 53) (h : shift = 0 ∨ 2 ^ 52 < m) (hpos : 0 < m) :
    units (shift * 2 ^ 52 + m - 1) + 2 ^ shift = m * 2 ^ shift := by
  have hgap : gap (shift * 2 ^ 52 + m - 1) = 2 ^ shift := by
    rw [gap, show (shift * 2 ^ 52 + m - 1) / 2 ^ 52 - 1 = shift by omega]
  rw [← hgap, ← units_succ, Nat.sub_add_cancel (by omega), units_shift hm (by omega), hgap]

/-- The quotient of `num` units by `den` rounds to a code: it lies between the midpoints around the
magnitude, strictly if the code is odd. -/
structure Rounds (c num den : Nat) : Prop where
  /-- The quotient is not below the midpoint to the magnitude before. -/
  lower : (units (c - 1) + units c) * den ≤ 2 * num
  /-- The quotient is not above the midpoint to the next magnitude. -/
  upper : 2 * num ≤ (units c + units (c + 1)) * den
  /-- An odd code leaves both midpoints to its neighbours. -/
  odd : c % 2 = 1 →
    (units (c - 1) + units c) * den < 2 * num ∧ 2 * num < (units c + units (c + 1)) * den

/-- A quotient rounds to no code before another to which it rounds. -/
theorem Rounds.le (hden : 0 < den) (hc : Rounds c num den) (hd : Rounds d num den) : d ≤ c := by
  by_contra hlt
  obtain ⟨d, rfl⟩ : ∃ e, d = e + 1 := ⟨d - 1, by omega⟩
  have hlower := hd.lower
  rw [Nat.add_sub_cancel] at hlower
  have hsum : units d + units (d + 1) ≤ units c + units (c + 1) :=
    Nat.le_of_mul_le_mul_right (hlower.trans hc.upper) hden
  -- The two codes are neighbours and the quotient is their midpoint, but one of them is odd.
  obtain rfl : d = c := by
    rcases Nat.lt_or_eq_of_le (show c ≤ d by omega) with hcd | hcd
    · have h₁ := units_strictMono hcd
      have h₂ := units_strictMono (show c + 1 < d + 1 by omega)
      omega
    · exact hcd.symm
  rcases Nat.mod_two_eq_zero_or_one d with heven | hodd
  · have hstrict := (hd.odd (by omega)).1
    rw [Nat.add_sub_cancel] at hstrict
    exact absurd hc.upper (by omega)
  · have hstrict := (hc.odd hodd).2
    omega

/-- A quotient rounds to one code only. -/
theorem Rounds.unique (hden : 0 < den) (hc : Rounds c num den) (hd : Rounds d num den) : c = d :=
  Nat.le_antisymm (hd.le hden hc) (hc.le hden hd)

/-- Whether a quotient rounds to a code does not depend on how the fraction is written. -/
theorem rounds_mul_iff {k : Nat} (hk : 0 < k) :
    Rounds c (num * k) (den * k) ↔ Rounds c num den := by
  have hle : ∀ a b : Nat, a * k ≤ b * k ↔ a ≤ b := fun a b => Nat.mul_le_mul_right_iff hk
  have hlt : ∀ a b : Nat, a * k < b * k ↔ a < b := fun a b => Nat.mul_lt_mul_right hk
  constructor
  · rintro ⟨hlower, hupper, hodd⟩
    simp only [← Nat.mul_assoc, hle, hlt] at hlower hupper hodd
    exact ⟨hlower, hupper, hodd⟩
  · rintro ⟨hlower, hupper, hodd⟩
    constructor <;> simpa only [← Nat.mul_assoc, hle, hlt]

/-- A magnitude itself rounds to its code. -/
theorem rounds_units (hc : 0 < c) : Rounds c (units c) 1 := by
  have hbefore := units_strictMono (show c - 1 < c by omega)
  have hafter := units_lt_succ c
  constructor <;> omega

/-- A half is rounded to an even neighbour. -/
theorem roundDiv_even (num : Nat) (hden : 0 < den)
    (h : 2 * num = 2 * (roundDiv num den * den) + den ∨
      2 * (roundDiv num den * den) = 2 * num + den) : roundDiv num den % 2 = 0 := by
  have hsplit : den * (num / den) + num % den = num := Nat.div_add_mod num den
  have hlt := Nat.mod_lt num hden
  have hcomm : den * (num / den) = num / den * den := Nat.mul_comm ..
  revert h
  simp only [roundDiv]
  split
  · omega
  · split
    · rw [Nat.add_mul]
      omega
    · omega

/-- Rounding to a whole number goes down by less than one. -/
theorem div_le_roundDiv (num den : Nat) : num / den ≤ roundDiv num den := by
  simp only [roundDiv]
  split
  · exact Nat.le_refl _
  · split <;> omega

/-- Rounding to a whole number goes up by one at most. -/
theorem roundDiv_le (num den : Nat) : roundDiv num den ≤ num / den + 1 := by
  simp only [roundDiv]
  split
  · omega
  · split <;> omega

/-- How far a quotient is shifted so that its significand has fifty-three bits. -/
def shiftOf (num den : Nat) : Nat := (num / den).log2 - 52

/-- The significand that a quotient is rounded to at its shift. -/
def significandOf (num den : Nat) : Nat := roundDiv num (den * 2 ^ shiftOf num den)

/-- The nearest code is put together from a power of two and a rounded mantissa, with infinity's
code as the limit. -/
theorem nearestCode_eq_min (num den : Nat) : nearestCode num den =
    min (shiftOf (num * unitsPerOne) den * 2 ^ 52 + significandOf (num * unitsPerOne) den)
      infinityCode := by
  simp only [nearestCode, Nat.shiftLeft_eq]
  rfl

/-- The significand is in range for its shift. -/
theorem significandOf_bounds (num : Nat) (hden : 0 < den) : significandOf num den ≤ 2 ^ 53 ∧
    (shiftOf num den = 0 ∨ 2 ^ 52 * (den * 2 ^ shiftOf num den) ≤ num) := by
  have hfloor : num / (den * 2 ^ shiftOf num den) = num / den / 2 ^ shiftOf num den :=
    (Nat.div_div_eq_div_mul ..).symm
  constructor
  · have hlt : num / den / 2 ^ shiftOf num den < 2 ^ 53 := by
      rw [Nat.div_lt_iff_lt_mul (Nat.two_pow_pos _), ← Nat.pow_add]
      refine Nat.lt_log2_self.trans_le (Nat.pow_le_pow_right Nat.zero_lt_two ?_)
      rw [shiftOf]
      omega
    have hround := roundDiv_le num (den * 2 ^ shiftOf num den)
    rw [significandOf]
    omega
  · rcases Nat.eq_zero_or_pos (shiftOf num den) with hzero | hpos
    · exact .inl hzero
    · right
      have hlog : 52 + shiftOf num den = (num / den).log2 := by
        rw [shiftOf] at hpos ⊢
        omega
      have hne : num / den ≠ 0 := by
        intro hzero
        rw [shiftOf, hzero] at hpos
        simp at hpos
      have hpow : 2 ^ 52 * 2 ^ shiftOf num den ≤ num / den := by
        rw [← Nat.pow_add, hlog]
        exact Nat.log2_self_le hne
      have hmul := (Nat.le_div_iff_mul_le hden).mp hpow
      rwa [Nat.mul_assoc, Nat.mul_comm (2 ^ shiftOf num den)] at hmul

/-- A quotient rounds to the code of a significand at a shift if it is half a step of the shift
away at most, if halves go to even significands only, and if it is not below the first significand
at a shift, where the steps are smaller. -/
theorem rounds_shift (hm : m ≤ 2 ^ 53) (hmin : shift = 0 ∨ 2 ^ 52 ≤ m)
    (hbelow : 2 * (m * (den * 2 ^ shift)) ≤ 2 * num + den * 2 ^ shift)
    (habove : 2 * num ≤ 2 * (m * (den * 2 ^ shift)) + den * 2 ^ shift)
    (heven : 2 * num = 2 * (m * (den * 2 ^ shift)) + den * 2 ^ shift ∨
      2 * (m * (den * 2 ^ shift)) = 2 * num + den * 2 ^ shift → m % 2 = 0)
    (hfirst : m ≤ 2 ^ 52 → shift = 0 ∨ m * (den * 2 ^ shift) ≤ num) :
    Rounds (shift * 2 ^ 52 + m) num den := by
  have hunits : units (shift * 2 ^ 52 + m) * den = m * (den * 2 ^ shift) := by
    rw [units_shift hm hmin, Nat.mul_assoc, Nat.mul_comm den]
  have hnext := Nat.mul_le_mul_right den (le_units_shift_succ hm hmin)
  rw [Nat.add_mul, Nat.mul_assoc, Nat.mul_comm (2 ^ shift)] at hnext
  have hbefore (hinner : shift = 0 ∨ 2 ^ 52 < m) (hpos : 0 < m) :
      units (shift * 2 ^ 52 + m - 1) * den + den * 2 ^ shift = m * (den * 2 ^ shift) := by
    rw [Nat.mul_comm den, ← Nat.add_mul, units_shift_pred hm hinner hpos, Nat.mul_assoc]
  have hmono : units (shift * 2 ^ 52 + m - 1) * den ≤ m * (den * 2 ^ shift) := by
    rw [← hunits]
    exact Nat.mul_le_mul_right _ (units_strictMono.monotone (Nat.sub_le _ 1))
  refine ⟨?_, ?_, fun hodd => ?_⟩
  · rw [Nat.add_mul, hunits]
    by_cases hinner : shift = 0 ∨ 2 ^ 52 < m
    · rcases Nat.eq_zero_or_pos m with rfl | hpos
      · omega
      · have := hbefore hinner hpos
        omega
    · have := hfirst (by omega)
      omega
  · rw [Nat.add_mul, hunits]
    omega
  · -- An odd significand is no half rounded, and is not the first at its shift.
    have hm : m % 2 = 1 := by omega
    have hbefore := hbefore (by omega) (by omega)
    rw [Nat.add_mul, Nat.add_mul, hunits]
    omega

/-- Rounding finds a code to which the quotient rounds, if infinity's does not come first. -/
theorem rounds_unclamped (num : Nat) (hden : 0 < den) :
    Rounds (shiftOf num den * 2 ^ 52 + significandOf num den) num den := by
  obtain ⟨hmax, hshift⟩ := significandOf_bounds num hden
  have hstep : 0 < den * 2 ^ shiftOf num den := Nat.mul_pos hden (Nat.two_pow_pos _)
  obtain ⟨hbelow, habove⟩ := @roundDiv_near num _ hstep
  have hmin : shiftOf num den = 0 ∨ 2 ^ 52 ≤ significandOf num den := hshift.imp_right fun h =>
    ((Nat.le_div_iff_mul_le hstep).mpr h).trans (div_le_roundDiv ..)
  exact rounds_shift hmax hmin hbelow habove (roundDiv_even num hstep) fun hfirst =>
    hshift.imp_right (Nat.mul_le_mul_right _ hfirst).trans

/-- A quotient that rounds to a finite magnitude is rounded to it. -/
theorem nearestCode_eq (hden : 0 < den) (hc : c < infinityCode)
    (h : Rounds c (num * unitsPerOne) den) : nearestCode num den = c := by
  rw [nearestCode_eq_min, (rounds_unclamped _ hden).unique hden h, Nat.min_eq_left hc.le]

end Spreadsheet.Binary64
