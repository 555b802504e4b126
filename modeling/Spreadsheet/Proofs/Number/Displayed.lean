import Spreadsheet.Proofs.Number.ReadBack
import Spreadsheet.Proofs.Number.Whole

/-!
# Numbers as they are displayed

The text that displays a finite number determines its exact value: read as the text of a cell it
gives the number again, but for the sign of zero. The text has a point exactly when the number is
not whole. For a whole number this is because its digits are written out; the shortest decimal of
any other number has a fraction, because the decimals that round to a magnitude lie nearer to it
than the next multiple of its distance to the next magnitude, and whole numbers are such multiples
unless the magnitude itself is whole.
-/

namespace Spreadsheet

open Binary64

variable {c n : Nat} {x y : Float}

namespace Binary64

/-- A magnitude is a whole number of steps. -/
theorem gap_dvd_units (c : Nat) : gap c ∣ units c := ⟨mantissa c, by rw [units_eq, Nat.mul_comm]⟩

theorem gap_mono : Monotone gap := fun _ _ h =>
  Nat.pow_le_pow_right Nat.zero_lt_two (Nat.sub_le_sub_right (Nat.div_le_div_right h) 1)

/-- Of two multiples of a distance that are at most half the distance apart there is only one. -/
theorem eq_of_dvd_of_near {a b step : Nat} (hstep : 0 < step) (ha : step ∣ a) (hb : step ∣ b)
    (hle : 2 * a ≤ 2 * b + step) (hge : 2 * b ≤ 2 * a + step) : a = b := by
  obtain ⟨k, rfl⟩ := ha
  obtain ⟨l, rfl⟩ := hb
  have hkl : 2 * k ≤ 2 * l + 1 := by
    refine Nat.le_of_mul_le_mul_left ?_ hstep
    calc step * (2 * k) = 2 * (step * k) := Nat.mul_left_comm ..
      _ ≤ 2 * (step * l) + step := hle
      _ = step * (2 * l + 1) := by ring
  have hlk : 2 * l ≤ 2 * k + 1 := by
    refine Nat.le_of_mul_le_mul_left ?_ hstep
    calc step * (2 * l) = 2 * (step * l) := Nat.mul_left_comm ..
      _ ≤ 2 * (step * k) + step := hge
      _ = step * (2 * k + 1) := by ring
  rw [show k = l by omega]

/-- What rounds to a magnitude is at most half the distance to the next one away. -/
theorem Rounds.near_units {num : Nat} (h : Rounds c num 1) :
    2 * num ≤ 2 * units c + gap c ∧ 2 * units c ≤ 2 * num + gap c := by
  have hlower := h.lower
  have hupper := h.upper
  rw [units_succ] at hupper
  have hbefore : units c ≤ units (c - 1) + gap c := by
    rcases Nat.eq_zero_or_pos c with rfl | hpos
    · exact Nat.le_add_right _ _
    · have hsucc := units_succ (c - 1)
      rw [Nat.sub_add_cancel hpos] at hsucc
      rw [hsucc]
      exact Nat.add_le_add_left (gap_mono (Nat.sub_le c 1)) _
  omega

/-- Whole numbers round to whole magnitudes. -/
theorem Rounds.whole (h : Rounds c (n * unitsPerOne) 1) : units c % unitsPerOne = 0 := by
  refine Nat.mod_eq_zero_of_dvd ?_
  rw [unitsPerOne_eq] at h ⊢
  rcases Nat.le_total (c / 2 ^ 52 - 1) unitBits with hsmall | hlarge
  · -- whole numbers and magnitudes here are multiples of the distance, so there is only one
    have hgap : gap c ∣ 2 ^ unitBits := Nat.pow_dvd_pow 2 hsmall
    obtain ⟨hle, hge⟩ := h.near_units
    rw [← eq_of_dvd_of_near (gap_pos c) (hgap.mul_left n) (gap_dvd_units c) hle hge]
    exact Nat.dvd_mul_left ..
  · exact (Nat.pow_dvd_pow 2 hlarge).trans (gap_dvd_units c)

/-- A number has no fraction if its exact value is a whole number. -/
theorem isWhole_iff (hx : x.isFinite = true) : isWhole x = true ↔ ∃ k : ℤ, value x = k := by
  have hdvd : (unitsPerOne : ℤ) ∣ signedUnits x ↔ units (code x) % unitsPerOne = 0 := by
    rw [← Int.natAbs_dvd_natAbs, natAbs_signedUnits, Int.natAbs_natCast, Nat.dvd_iff_mod_eq_zero]
  rw [isWhole, beq_iff_eq, ← hdvd, value_eq hx]
  constructor
  · rintro ⟨k, hk⟩
    refine ⟨k, ?_⟩
    rw [hk, Int.cast_mul, Int.cast_natCast, mul_div_cancel_left₀ _ cast_unitsPerOne_pos.ne']
  · rintro ⟨k, hk⟩
    rw [div_eq_iff cast_unitsPerOne_pos.ne'] at hk
    refine ⟨k, ?_⟩
    rw [mul_comm]
    exact_mod_cast hk

end Binary64

namespace Decimal

/-- The shortest decimal of a magnitude that is not whole has a fraction. -/
theorem exponent_shortest_neg (hc : 0 < c) (hfraction : units c % unitsPerOne ≠ 0) :
    (shortest c).exponent < 0 := by
  by_contra hnonneg
  have h : Binary64.Rounds c
      ((shortest c).significand * 10 ^ (shortest c).exponent.toNat * unitsPerOne)
      (10 ^ (-(shortest c).exponent).toNat) := rounds_shortest hc
  rw [show (-(shortest c).exponent).toNat = 0 by omega, Nat.pow_zero] at h
  exact hfraction h.whole

/-- A decimal with digits behind the point is written with the point. -/
theorem point_mem_positional {d : Decimal} (h : d.exponent < 0) : '.' ∈ d.positional := by
  simp [positional, h]

end Decimal

namespace Number

theorem point_mem_signed_iff {magnitude : List Char} :
    '.' ∈ signed x magnitude ↔ '.' ∈ magnitude := by
  rw [signed]
  split
  · rw [List.mem_cons, or_iff_right (by decide)]
  · rfl

/-- A number is displayed without a point if it is whole. -/
theorem point_mem_display_iff (hx : x.isFinite = true) : '.' ∈ display x ↔ isWhole x = false := by
  rw [display, hx, if_neg (by simp)]
  split
  · rename_i hcode
    have hwhole : isWhole x = true := by rw [isWhole, hcode, units_zero, Nat.zero_mod]; rfl
    simp [hwhole]
  · rename_i hcode
    split
    · rename_i hwhole
      have hdigits : '.' ∉ Nat.toDigits 10 (units (code x) / unitsPerOne) := fun hmem => by
        cases List.all_eq_true.mp (all_isDigit_toDigits _) _ hmem
      simp [point_mem_signed_iff, hdigits, hwhole]
    · rename_i hwhole
      have hneg := Decimal.exponent_shortest_neg (Nat.pos_of_ne_zero hcode)
        (by simpa [isWhole] using hwhole)
      rw [plain, hx, if_neg (by simp), if_neg hcode, point_mem_signed_iff]
      exact iff_of_true (Decimal.point_mem_positional hneg) (by simpa using hwhole)

/-- Both zeros are displayed as zero. -/
theorem display_of_code_eq_zero (hx : x.isFinite = true) (hcode : code x = 0) :
    display x = ['0'] := by
  rw [display, hx, if_neg (by simp), if_pos hcode]

/-- Numbers with the same exact value are equal or both zero. -/
theorem value_eq_value_iff (hx : x.isFinite = true) (hy : y.isFinite = true) :
    value x = value y ↔ x = y ∨ code x = 0 ∧ code y = 0 := by
  rw [value_eq hx, value_eq hy, div_left_inj' cast_unitsPerOne_pos.ne', Int.cast_inj]
  constructor
  · intro h
    have hunits : units (code x) = units (code y) := by
      rw [← natAbs_signedUnits, ← natAbs_signedUnits, h]
    have hcode : code x = code y := units_strictMono.injective hunits
    rcases Nat.eq_zero_or_pos (code x) with hzero | hpos
    · exact .inr ⟨hzero, hcode ▸ hzero⟩
    · have hsign : isNegative x = isNegative y := by
        have hunits_pos := units_pos hpos
        rw [signedUnits, signedUnits, ← hunits] at h
        cases hnx : isNegative x <;> cases hny : isNegative y <;> simp [hnx, hny] at h ⊢ <;> omega
      exact .inl (by rw [← ofCode_code hx, ← ofCode_code hy, hcode, hsign])
  · rintro (rfl | ⟨hx', hy'⟩)
    · rfl
    · simp [signedUnits, hx', hy', units_zero]

end Number

namespace Content

/-- The text that displays a finite number reads as the number, and for a zero as the positive
one. -/
theorem number?_display_zero (hx : x.isFinite = true) :
    (ofText (String.ofList (Number.display x))).number? = some (if code x = 0 then 0 else x) := by
  by_cases hcode : code x = 0
  · have hzero : (0 : Float) = ofCode false 0 := by decide +kernel
    obtain ⟨hcode', hsign, hfinite⟩ := of_ofCode false (c := 0) (by decide)
    have hread := number?_display hfinite fun _ => hsign
    rw [Number.display_of_code_eq_zero hfinite hcode'] at hread
    rw [Number.display_of_code_eq_zero hx hcode, if_pos hcode, hread, hzero]
  · rw [if_neg hcode, number?_display hx fun h => absurd h hcode]

end Content

namespace Number

/-- Finite numbers are displayed alike if their exact values are equal. -/
theorem display_eq_display_iff (hx : x.isFinite = true) (hy : y.isFinite = true) :
    display x = display y ↔ value x = value y := by
  rw [value_eq_value_iff hx hy]
  constructor
  · intro h
    have hread := Content.number?_display_zero hx
    rw [h, Content.number?_display_zero hy, Option.some_inj] at hread
    have hzero : code 0 = 0 := by decide +kernel
    by_cases hcodex : code x = 0 <;> by_cases hcodey : code y = 0
    · exact .inr ⟨hcodex, hcodey⟩
    · rw [if_neg hcodey, if_pos hcodex] at hread
      exact absurd (hread ▸ hzero) hcodey
    · rw [if_pos hcodey, if_neg hcodex] at hread
      exact absurd (hread ▸ hzero) hcodex
    · rw [if_neg hcodey, if_neg hcodex] at hread
      exact .inl hread.symm
  · rintro (rfl | ⟨hx', hy'⟩)
    · rfl
    · rw [display_of_code_eq_zero hx hx', display_of_code_eq_zero hy hy']

/-- The text that displays a finite number reads as the number, a zero as the positive one. Finite
numbers with different values are displayed differently, and only whole ones without a point. -/
theorem display_faithful (hx : x.isFinite = true) :
    (Content.ofText (String.ofList (display x))).number? =
        some (if code x = 0 then 0 else x) ∧
      (∀ y : Float, y.isFinite = true → (display x = display y ↔ value x = value y)) ∧
      ('.' ∉ display x ↔ ∃ k : ℤ, value x = k) := by
  refine ⟨Content.number?_display_zero hx, fun y hy => display_eq_display_iff hx hy, ?_⟩
  rw [point_mem_display_iff hx, Bool.not_eq_false, isWhole_iff hx]

/-- Negative zero is displayed like zero, and reads as zero. -/
theorem display_faithful_negativeZero :
    (Content.ofText (String.ofList (display (ofCode true 0)))).number? = some 0 ∧
      ofCode true 0 ≠ 0 ∧ display (ofCode true 0) = display 0 ∧ '.' ∉ display (ofCode true 0) := by
  obtain ⟨hcode, hsign, hfinite⟩ := of_ofCode true (c := 0) (by decide)
  have hfinite' : (0 : Float).isFinite = true := by decide +kernel
  have hcode' : code 0 = 0 := by decide +kernel
  have hpositive : isNegative 0 = false := by decide +kernel
  obtain ⟨hread, hdisplay, hpoint⟩ := display_faithful hfinite
  rw [if_pos hcode] at hread
  refine ⟨hread, fun h => ?_, ?_, ?_⟩
  · rw [h, hpositive] at hsign
    cases hsign
  · rw [hdisplay 0 hfinite', value_eq_value_iff hfinite hfinite']
    exact .inr ⟨hcode, hcode'⟩
  · refine hpoint.mpr ⟨0, ?_⟩
    rw [value_eq hfinite, signedUnits, hcode, units_zero]
    simp

end Number

end Spreadsheet
