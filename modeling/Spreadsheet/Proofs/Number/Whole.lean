import Mathlib.Algebra.Order.Field.Power
import Mathlib.Data.Rat.Floor
import Mathlib.Tactic.Linarith
import Mathlib.Tactic.Positivity
import Spreadsheet.Proofs.Number.Code
import Spreadsheet.Proofs.Number.Rounding

/-!
# Exact values and whole parts

A finite number stands for a sign times a mantissa times a power of two. This exact value is a
signed number of units, so truncation drops the fraction of the exact value, and a whole number
that is rounded gives the finite number whose exact value is nearest, with an even code where
there are two.
-/

namespace Spreadsheet.Binary64

open Float.Model Float.Model.UnpackedFloat

variable {x y : Float} {c d num : Nat} {n : Int} {r : ℚ}

theorem unitsPerOne_eq : unitsPerOne = 2 ^ unitBits := Nat.one_shiftLeft unitBits

theorem unitsPerOne_pos : 0 < unitsPerOne := by
  rw [unitsPerOne_eq]
  exact Nat.two_pow_pos _

/-- A magnitude is its mantissa, shifted by the distance to the next one. -/
theorem units_eq (c : Nat) : units c = mantissa c * gap c := by
  rw [mantissa, gap]
  split
  · rename_i hsmall
    rw [units_of_lt hsmall, show c / 2 ^ 52 - 1 = 0 by omega, Nat.pow_zero, Nat.mul_one]
  · exact units_of_ge (by omega)

/-- The exact value of a finite number. -/
def value (x : Float) : ℚ :=
  match x.toModel.unpack with
  | .finite s m e _ => s.apply m * 2 ^ e
  | _ => 0

/-- The exact value in units. -/
def signedUnits (x : Float) : ℤ := if isNegative x then -(units (code x)) else units (code x)

theorem cast_unitsPerOne : (unitsPerOne : ℚ) = 2 ^ unitBits := by
  rw [unitsPerOne_eq]
  exact Nat.cast_pow 2 unitBits

theorem cast_unitsPerOne_pos : (0 : ℚ) < unitsPerOne := Nat.cast_pos.mpr unitsPerOne_pos

/-- The value of a finite number is its signed magnitude in units. -/
theorem value_eq (hx : x.isFinite = true) : value x = signedUnits x / unitsPerOne := by
  have hshift : (units (code x) : ℚ) / unitsPerOne =
      mantissa (code x) * 2 ^ (((code x / 2 ^ 52 - 1 : Nat) : ℤ) - unitBits) := by
    rw [units_eq, gap, cast_unitsPerOne, zpow_sub₀ two_ne_zero, zpow_natCast, zpow_natCast,
      mul_div_assoc', Nat.cast_mul, Nat.cast_pow, Nat.cast_ofNat]
  rw [value, unpack_eq hx, signedUnits, unpacked]
  by_cases hpos : 0 < mantissa (code x)
  · rw [dif_pos hpos]
    cases isNegative x <;> simp [Sign.apply, neg_div, hshift]
  · have hzero : units (code x) = 0 := by rw [units_eq, Nat.eq_zero_of_not_pos hpos, Nat.zero_mul]
    rw [dif_neg hpos, hzero]
    simp

/-- The whole part of the exact value. -/
def whole (x : Float) : ℤ := if 0 ≤ value x then ⌊value x⌋ else ⌈value x⌉

/-- Truncation gives the whole part. -/
theorem truncate_eq_whole (hx : x.isFinite = true) : truncate x = whole x := by
  have hnan : x.isNaN = false := by
    change x.toModel.unpack.isNaN = false
    rw [unpack_eq hx, isNaN_unpacked]
  have hfloor : ⌊(units (code x) : ℚ) / unitsPerOne⌋ = (units (code x) / unitsPerOne : ℕ) := by
    rw [Rat.floor_natCast_div_natCast]
    rfl
  have hnonneg : (0 : ℚ) ≤ units (code x) / unitsPerOne := by positivity
  rw [truncate, hnan, whole, value_eq hx, signedUnits]
  cases isNegative x
  · simp only [Bool.false_eq_true, if_false, Int.cast_natCast, hfloor, if_pos hnonneg]
  · simp only [Bool.false_eq_true, if_false, if_true, Int.cast_neg, Int.cast_natCast, neg_div,
      Int.ceil_neg, Int.floor_neg, hfloor]
    split
    · rename_i hneg
      have hzero : (units (code x) : ℚ) / unitsPerOne = 0 := by linarith
      rw [hzero] at hfloor ⊢
      rw [← hfloor]
      simp
    · rfl

/-- A finite number is the one to which a rational number is rounded. -/
structure IsNearest (x : Float) (r : ℚ) : Prop where
  /-- The number is finite. -/
  finite : x.isFinite = true
  /-- No finite number is nearer. -/
  near : ∀ y : Float, y.isFinite = true → |value x - r| ≤ |value y - r|
  /-- If another number is as near, the code is the even one. -/
  even : ∀ y : Float, y.isFinite = true → |value y - r| = |value x - r| → value y ≠ value x →
    code x % 2 = 0
  /-- The sign is that of the rational number, and zero is positive. -/
  sign : isNegative x = decide (r < 0)

/-- Among numbers of one sign the exact values are in the order of the codes or against it. -/
theorem value_lt_value (hx : x.isFinite = true) (hy : y.isFinite = true)
    (hsign : isNegative x = isNegative y) (hcode : code x < code y) :
    if isNegative x then value y < value x else value x < value y := by
  have hunits : (units (code x) : ℤ) < units (code y) := Int.ofNat_lt.mpr (units_strictMono hcode)
  rw [value_eq hx, value_eq hy, div_lt_div_iff_of_pos_right cast_unitsPerOne_pos,
    div_lt_div_iff_of_pos_right cast_unitsPerOne_pos, Int.cast_lt, Int.cast_lt, signedUnits,
    signedUnits, ← hsign]
  split <;> omega

/-- Of two numbers nearest to the same one, the first has no smaller code than the second. -/
theorem IsNearest.not_code_lt (hx : IsNearest x r) (hy : IsNearest y r) : ¬ code x < code y := by
  intro hlt
  have hsign : isNegative x = isNegative y := hx.sign.trans hy.sign.symm
  have hdist : |value x - r| = |value y - r| :=
    le_antisymm (hx.near y hy.finite) (hy.near x hx.finite)
  have hordered := value_lt_value hx.finite hy.finite hsign hlt
  have hne : value x ≠ value y := by
    split at hordered
    · exact hordered.ne'
    · exact hordered.ne
  -- Both codes are even, so that there is a number between them, which is nearer.
  have hevenx := hx.even y hy.finite hdist.symm hne.symm
  have heveny := hy.even x hx.finite hdist hne
  obtain ⟨hcode, hsignz, hz⟩ := of_ofCode (isNegative x) (c := code x + 1)
    ((isFinite_iff.mp hy.finite).trans' (by omega))
  have hafter := value_lt_value hx.finite hz hsignz.symm (by omega)
  have hbefore := value_lt_value hz hy.finite (hsignz.trans hsign) (by omega)
  have hnear := hx.near _ hz
  rw [hsignz] at hbefore
  generalize value (ofCode (isNegative x) (code x + 1)) = z at hafter hbefore hnear
  have hbetween : value x < z ∧ z < value y ∨ value y < z ∧ z < value x := by
    split at hafter
    · rename_i hneg
      rw [if_pos hneg] at hbefore
      exact .inr ⟨hbefore, hafter⟩
    · rename_i hpos
      rw [if_neg hpos] at hbefore
      exact .inl ⟨hafter, hbefore⟩
  rcases abs_cases (value x - r) with ⟨hx, _⟩ | ⟨hx, _⟩ <;>
    rcases abs_cases (value y - r) with ⟨hy, _⟩ | ⟨hy, _⟩ <;>
    rcases abs_cases (z - r) with ⟨hz, _⟩ | ⟨hz, _⟩ <;>
    rcases hbetween with ⟨_, _⟩ | ⟨_, _⟩ <;> linarith

/-- Rounding is a function. -/
theorem IsNearest.unique (hx : IsNearest x r) (hy : IsNearest y r) : x = y := by
  have hcode : code x = code y := by
    have hlt := hx.not_code_lt hy
    have hgt := hy.not_code_lt hx
    omega
  rw [← ofCode_code hx.finite, ← ofCode_code hy.finite, hcode, hx.sign, hy.sign]

/-- A number of units lies as near to the magnitude that it rounds to as to any other, and if it
lies as near to another, the code is even. -/
theorem Rounds.near (h : Rounds c num 1) {z : ℤ} (hz : z.natAbs = units d) :
    (units c - num : ℤ).natAbs ≤ (z - num).natAbs ∧
      ((z - num).natAbs = (units c - num : ℤ).natAbs → z ≠ units c → c % 2 = 0) := by
  have hlower := h.lower
  have hupper := h.upper
  have hodd := h.odd
  simp only [Nat.mul_one] at hlower hupper hodd
  rcases Nat.lt_trichotomy d c with hlt | rfl | hlt
  · have hd : units d ≤ units (c - 1) := units_strictMono.monotone (by omega)
    have hc : units (c - 1) < units c := units_strictMono (by omega)
    omega
  · have hd : units (d - 1) ≤ units d := units_strictMono.monotone (by omega)
    have hd' := units_lt_succ d
    omega
  · have hd : units (c + 1) ≤ units d := units_strictMono.monotone (by omega)
    have hc := units_lt_succ c
    omega

/-- How far a finite number is from a whole number, in units. -/
theorem abs_value_sub (hx : x.isFinite = true) (n : ℤ) :
    |value x - n| = (signedUnits x - n * unitsPerOne).natAbs / unitsPerOne := by
  rw [value_eq hx, div_sub' cast_unitsPerOne_pos.ne', abs_div, abs_of_pos cast_unitsPerOne_pos,
    Nat.cast_natAbs]
  push_cast
  rw [mul_comm]

/-- The magnitude after the largest finite one is far beyond sixty-four bits. -/
theorem le_units_infinityCode : 2 ^ 65 * unitsPerOne ≤ units infinityCode := by
  have hinfinity : infinityCode = (unitBits + 972 + 1) * 2 ^ 52 + 0 := rfl
  rw [hinfinity, units_normal _ (Nat.two_pow_pos 52), unitsPerOne_eq, Nat.add_zero,
    ← Nat.pow_add, ← Nat.pow_add]
  exact Nat.pow_le_pow_right Nat.zero_lt_two (by omega)

/-- What is rounded to infinity's code is more than `2 ^ 63`. -/
theorem Rounds.lt_infinityCode (h : Rounds c num 1) (hnum : num ≤ 2 ^ 63 * unitsPerOne) :
    c < infinityCode := by
  by_contra hle
  have hmono : units infinityCode ≤ units c := units_strictMono.monotone (Nat.le_of_not_lt hle)
  have hlarge := le_units_infinityCode
  have hpos := unitsPerOne_pos
  have hlower := h.lower
  omega

/-- A whole number of sixty-four bits is rounded to a finite number with its sign. -/
theorem rounds_ofInt (hn : n.natAbs ≤ 2 ^ 63) :
    Rounds (code (ofInt n)) (n.natAbs * unitsPerOne) 1 ∧ isNegative (ofInt n) = decide (n < 0) ∧
      (ofInt n).isFinite = true := by
  have h := rounds_unclamped (n.natAbs * unitsPerOne) Nat.one_pos
  have hc := h.lt_infinityCode (Nat.mul_le_mul_right _ hn)
  obtain ⟨hcode, hsign, hfinite⟩ := of_ofCode (n < 0) hc
  rw [ofInt, nearest, nearestCode_eq Nat.one_pos hc h, hcode]
  exact ⟨h, hsign, hfinite⟩

theorem natAbs_signedUnits (x : Float) : (signedUnits x).natAbs = units (code x) := by
  rw [signedUnits]
  split <;> omega

/-- In units, too, no number is nearer than the one that a whole number is rounded to. -/
theorem ofInt_near (hn : n.natAbs ≤ 2 ^ 63) (y : Float) :
    (signedUnits (ofInt n) - n * unitsPerOne).natAbs ≤ (signedUnits y - n * unitsPerOne).natAbs ∧
      ((signedUnits y - n * unitsPerOne).natAbs =
          (signedUnits (ofInt n) - n * unitsPerOne).natAbs →
        signedUnits y ≠ signedUnits (ofInt n) → code (ofInt n) % 2 = 0) := by
  obtain ⟨hrounds, hsign, _⟩ := rounds_ofInt hn
  rw [signedUnits, hsign]
  rcases lt_or_ge n 0 with hneg | hnonneg
  · -- A negative number is the mirror image of its magnitude.
    have hnum : n * unitsPerOne = -((n.natAbs * unitsPerOne : ℕ) : ℤ) := by
      rw [Nat.cast_mul, Int.ofNat_natAbs_of_nonpos hneg.le, neg_mul, neg_neg]
    have hmirror : (-signedUnits y).natAbs = units (code y) :=
      (Int.natAbs_neg _).trans (natAbs_signedUnits y)
    have h := hrounds.near hmirror
    rw [hnum, if_pos (decide_eq_true hneg)]
    generalize n.natAbs * unitsPerOne = num at h
    generalize signedUnits y = z at h
    omega
  · have hnum : n * unitsPerOne = ((n.natAbs * unitsPerOne : ℕ) : ℤ) := by
      rw [Nat.cast_mul, Int.natAbs_of_nonneg hnonneg]
    rw [hnum, if_neg (by simpa using hnonneg)]
    exact hrounds.near (natAbs_signedUnits y)

/-- Rounding a whole number of sixty-four bits gives the nearest number. -/
theorem isNearest_ofInt (hn : n.natAbs ≤ 2 ^ 63) : IsNearest (ofInt n) n := by
  obtain ⟨_, hsign, hfinite⟩ := rounds_ofInt hn
  have hpos := cast_unitsPerOne_pos
  refine ⟨hfinite, fun y hy => ?_, fun y hy htie hne => ?_, ?_⟩
  · rw [abs_value_sub hfinite, abs_value_sub hy, div_le_div_iff_of_pos_right hpos, Nat.cast_le]
    exact (ofInt_near hn y).1
  · rw [abs_value_sub hfinite, abs_value_sub hy, div_left_inj' hpos.ne', Nat.cast_inj] at htie
    rw [value_eq hfinite, value_eq hy, Ne, div_left_inj' hpos.ne', Int.cast_inj] at hne
    exact (ofInt_near hn y).2 htie hne
  · rw [hsign]
    simp

end Spreadsheet.Binary64
