import Spreadsheet.Proofs.Number.Code

/-!
# One more and one less

Adding one to a finite number, or subtracting it, gives a finite number again. A sum is worked out
exactly and then rounded; rounding overflows only from half a step above the largest number on,
and one is far less than that where it would matter.
-/

namespace Spreadsheet.Binary64

open Float.Model Float.Model.UnpackedFloat

variable {s : Sign} {m n : Nat} {e : Int} {x : Float}

/-- An unpacked number that is packed as a finite one. -/
def Fits : UnpackedFloat → Prop
  | .zero _ => True
  | .finite _ _ e _ => e ≤ 971
  | _ => False

/-- A number that fits is packed as a finite one. -/
theorem Fits.isFinite {u : UnpackedFloat} (h : Fits u) :
    (UnpackedFloat.unpack .binary64 (UnpackedFloat.pack .binary64 u)).isFinite = true := by
  rw [isFinite_unpack_iff]
  cases u with
  | infinity s => exact h.elim
  | notANumber => exact h.elim
  | zero s =>
    unfold UnpackedFloat.pack packedZero
    rw [unpackExponent_packComponents]
    decide
  | finite s m e hm =>
    have hbias : Format.binary64.exponentBias = 1023 := by decide
    have he : e ≤ 971 := h
    have hbiased : (e + (1023 : Nat) + (52 : Nat)).toNat < 2047 := by omega
    unfold UnpackedFloat.pack
    simp only [hbias]
    generalize (e + (1023 : Nat) + (52 : Nat)).toNat = biased at *
    rw [if_neg (by omega)]
    split
    · rw [unpackExponent_packComponents]
      intro heq
      have hnat : biased % 2 ^ 11 = 2047 := congrArg BitVec.toNat heq
      omega
    · rw [unpackExponent_packComponents]
      decide

/-- The parts of an unpacked finite number are in range. -/
theorem unpack_cases (hx : x.isFinite = true) : (∃ s, x.toModel.unpack = .zero s) ∨
    ∃ s m e hm, x.toModel.unpack = .finite s m e hm ∧ m < 2 ^ 53 ∧ e ≤ 971 := by
  have hunit : (unitBits : Int) = 1074 := rfl
  have hcode : code x < 2047 * 2 ^ 52 := isFinite_iff.mp hx
  rw [unpack_eq hx]
  obtain hzero | ⟨hpos, hsome⟩ := unpacked_cases
    (if isNegative x then .negative else .positive) (mantissa (code x))
    ((code x / 2 ^ 52 - 1 : Nat) - unitBits)
  · exact .inl ⟨_, hzero⟩
  · exact .inr ⟨_, _, _, hpos, hsome, mantissa_lt _, by omega⟩

theorem mantissa_shiftRight (em : ExtendedMantissa) (n : Nat) :
    (em >>> n).mantissa = em.mantissa / 2 ^ n := by
  induction n with
  | zero => exact (Nat.div_one _).symm
  | succ n ih =>
    have hstep : (em >>> (n + 1)).mantissa = (em >>> n).mantissa / 2 := rfl
    rw [hstep, ih, Nat.div_div_eq_div_mul, Nat.pow_succ]

theorem roundBit_shiftRight (em : ExtendedMantissa) (n : Nat) :
    (em >>> (n + 1)).roundBit = (em.mantissa / 2 ^ n % 2 != 0) := by
  rw [← mantissa_shiftRight]
  rfl

/-- A mantissa is rounded up at most if the next bit is set. -/
theorem roundedMantissa_le (em : ExtendedMantissa) :
    em.roundedMantissa ≤ em.mantissa + em.roundBit.toNat := by
  obtain ⟨m, roundBit, stickyBit⟩ := em
  cases roundBit <;> cases stickyBit <;>
    simp [ExtendedMantissa.roundedMantissa, ExtendedMantissa.accuracy,
      Accuracy.roundToNearestEven]
  omega

/-- The exponent to which a number is rounded, from the length of its mantissa. -/
theorem targetExponent_eq (m : Nat) (e : Int) :
    Format.binary64.targetExponent (totalExponent m e) = max (m.log2 + e - 52) (-1074) := by
  have hlength : (Format.binary64.mantissaBits : Int) = 53 := by decide
  have hmin : Format.binary64.minExponent = -1074 := by decide
  rw [Format.targetExponent, totalExponent, hlength, hmin]
  omega

/-- Shifting to the target exponent only raises the exponent. -/
theorem snd_shiftToTargetExponent (m : Nat) (e : Int) :
    (shiftToTargetExponent .binary64 m e .exact).2 = max e (max (m.log2 + e - 52) (-1074)) := by
  rw [shiftToTargetExponent, shiftToExponent, targetExponent_eq]
  simp only []
  omega

/-- A mantissa that may be zero fits at an exponent in range. -/
theorem fits_dite (he : e ≤ 971) :
    Fits (if h : m = 0 then .zero s else .finite s m e (Nat.pos_of_ne_zero h)) := by
  by_cases hm : m = 0
  · rw [dif_pos hm]
    trivial
  · rw [dif_neg hm]
    exact he

/-- Rounding gives a number that fits if the first shift and the length of the rounded mantissa
leave room for it. -/
theorem fits_roundWithAccuracy (h : (shiftToTargetExponent .binary64 m e .exact).2 ≤ 971)
    (hlog : ((shiftToTargetExponent .binary64 m e .exact).1.roundedMantissa.log2 : Int) +
      (shiftToTargetExponent .binary64 m e .exact).2 ≤ 1023) :
    Fits (roundWithAccuracy .binary64 s m e .exact) := by
  have hexponent := snd_shiftToTargetExponent
    (shiftToTargetExponent .binary64 m e .exact).1.roundedMantissa
    (shiftToTargetExponent .binary64 m e .exact).2
  have hle : (shiftToTargetExponent .binary64
      (shiftToTargetExponent .binary64 m e .exact).1.roundedMantissa
      (shiftToTargetExponent .binary64 m e .exact).2 .exact).2 ≤ 971 := by omega
  exact fits_dite hle

theorem log2_le (h : m < 2 ^ (n + 1)) : m.log2 ≤ n := by
  rcases Nat.eq_zero_or_pos m with rfl | hpos
  · simp
  · exact Nat.le_of_lt_succ ((Nat.log2_lt (Nat.ne_of_gt hpos)).mpr h)

theorem log2_mul_two_pow (hm : 0 < m) (k : Nat) : (m * 2 ^ k).log2 = m.log2 + k := by
  induction k with
  | zero => rw [Nat.pow_zero, Nat.mul_one, Nat.add_zero]
  | succ k ih =>
    have hne : m * 2 ^ k ≠ 0 := Nat.ne_of_gt (Nat.mul_pos hm (Nat.two_pow_pos k))
    rw [Nat.pow_succ', Nat.mul_left_comm, Nat.log2_two_mul hne, ih, Nat.add_assoc]

/-- The leading bit of a mantissa below half a step above the largest number. -/
theorem log2_add_le (he : e ≤ 970) (hpos : 0 < m) (hm : m < (2 ^ 54 - 1) * 2 ^ (970 - e).toNat) :
    (m.log2 : Int) + e ≤ 1023 := by
  have hlt : 2 ^ m.log2 < 2 ^ (54 + (970 - e).toNat) := by
    have hself := Nat.log2_self_le (Nat.ne_of_gt hpos)
    rw [Nat.pow_add]
    omega
  have := (Nat.pow_lt_pow_iff_right (by decide)).mp hlt
  omega

/-- A mantissa below half a step above the largest number, at an exponent that is not above the
one it is rounded to, is rounded to a number that fits. -/
theorem fits_roundWithAccuracy_of_lt (he : e ≤ 970) (hpos : 0 < m)
    (hm : m < (2 ^ 54 - 1) * 2 ^ (970 - e).toNat) (htarget : e ≤ max (m.log2 + e - 52) (-1074)) :
    Fits (roundWithAccuracy .binary64 s m e .exact) := by
  have hsnd := snd_shiftToTargetExponent m e
  obtain ⟨em, k, hmantissa, hem, hk⟩ : ∃ (em : ExtendedMantissa) (k : Nat), em.mantissa = m ∧
      (shiftToTargetExponent .binary64 m e .exact).1 = em >>> k ∧
      (shiftToTargetExponent .binary64 m e .exact).2 = e + k :=
    ⟨⟨m, false, false⟩, _, rfl, rfl, rfl⟩
  have hround := roundedMantissa_le (em >>> k)
  rw [mantissa_shiftRight, hmantissa] at hround
  have hlog := log2_add_le he hpos hm
  have hquotient : m / 2 ^ k < 2 ^ 53 := by
    rw [Nat.div_lt_iff_lt_mul (Nat.two_pow_pos k), ← Nat.pow_add]
    exact Nat.lt_log2_self.trans_le (Nat.pow_le_pow_right Nat.zero_lt_two (by omega))
  refine fits_roundWithAccuracy (by omega) ?_
  rw [hem, hk]
  by_cases hlast : e + k ≤ 970
  · have hbit := Bool.toNat_le (em >>> k).roundBit
    have hlength : (em >>> k).roundedMantissa.log2 ≤ 53 := log2_le (by omega)
    omega
  · -- At the largest exponent a mantissa of ones only is followed by a zero.
    obtain ⟨j, rfl⟩ : ∃ j, k = j + 1 := ⟨k - 1, by omega⟩
    have hdouble : m / 2 ^ j < 2 ^ 54 - 1 := by
      rw [Nat.div_lt_iff_lt_mul (Nat.two_pow_pos j), show j = (970 - e).toNat by omega]
      exact hm
    have hbit : (m / 2 ^ j % 2 != 0).toNat = m / 2 ^ j % 2 := by
      rcases Nat.mod_two_eq_zero_or_one (m / 2 ^ j) with h | h <;> rw [h] <;> rfl
    rw [roundBit_shiftRight, hmantissa, hbit, Nat.pow_succ, ← Nat.div_div_eq_div_mul] at hround
    have hlength : (em >>> (j + 1)).roundedMantissa.log2 ≤ 52 := log2_le (by omega)
    omega

/-- A mantissa below half a step above the largest number is rounded to a number that fits. -/
theorem fits_round (he : e ≤ 970) (hpos : 0 < m) (hm : m < (2 ^ 54 - 1) * 2 ^ (970 - e).toNat) :
    Fits (UnpackedFloat.round .binary64 s m e) := by
  rw [UnpackedFloat.round, targetExponent_eq]
  simp only [decreaseExponent]
  obtain ⟨k, hk⟩ : ∃ k, (e - max (m.log2 + e - 52) (-1074)).toNat = k := ⟨_, rfl⟩
  rw [hk, Nat.shiftLeft_eq]
  have hlog := log2_mul_two_pow hpos k
  refine fits_roundWithAccuracy_of_lt (by omega) (Nat.mul_pos hpos (Nat.two_pow_pos k)) ?_ ?_
  · have hexponent : (970 - (e - k)).toNat = (970 - e).toNat + k := by omega
    rw [hexponent, Nat.pow_add, ← Nat.mul_assoc]
    exact Nat.mul_lt_mul_of_pos_right hm (Nat.two_pow_pos k)
  · omega

/-- A number that does not reach the last midpoint is normalized to a finite one. -/
theorem fits_normalize {m : Int} (he : e ≤ 970)
    (hm : m.natAbs < (2 ^ 54 - 1) * 2 ^ (970 - e).toNat) :
    Fits (UnpackedFloat.normalize .binary64 m e s) := by
  rw [UnpackedFloat.normalize]
  split
  · rename_i hneg
    rw [Int.compare_eq_lt] at hneg
    have habs : (-m).toNat = m.natAbs := by omega
    exact fits_round he (by omega) (by rwa [habs])
  · trivial
  · rename_i hpos
    rw [Int.compare_eq_gt] at hpos
    have habs : m.toNat = m.natAbs := by omega
    exact fits_round he (by omega) (by rwa [habs])

theorem unpack_one :
    (1 : Float).toModel.unpack = .finite .positive (2 ^ 52) (-52) (by decide) := rfl

/-- Two mantissas at a common exponent, one of them that of the number one. -/
theorem aligned_lt (hm : m < 2 ^ 53) (he : e ≤ 971) :
    m <<< (e - min e (-52)).toNat + 2 ^ 52 <<< (-52 - min e (-52)).toNat <
      (2 ^ 54 - 1) * 2 ^ (970 - min e (-52)).toNat := by
  obtain ⟨i, hi⟩ : ∃ i, (e - min e (-52)).toNat = i := ⟨_, rfl⟩
  obtain ⟨j, hj⟩ : ∃ j, (-52 - min e (-52)).toNat = j := ⟨_, rfl⟩
  obtain ⟨k, hk⟩ : ∃ k, (970 - min e (-52)).toNat = k := ⟨_, rfl⟩
  rw [hi, hj, hk, Nat.shiftLeft_eq, Nat.shiftLeft_eq, ← Nat.pow_add]
  have hmantissa : m * 2 ^ i ≤ (2 ^ 53 - 1) * 2 ^ (k + 1) :=
    Nat.mul_le_mul (by omega) (Nat.pow_le_pow_right Nat.zero_lt_two (by omega))
  have hone : 2 ^ (52 + j) < 2 ^ k := Nat.pow_lt_pow_right (by decide) (by omega)
  rw [Nat.pow_succ] at hmantissa
  omega

/-- Sums and differences of signed mantissas are no larger than the mantissas together. -/
theorem natAbs_apply_le (s t : Sign) (m n : Nat) :
    (s.apply m + t.apply n).natAbs ≤ m + n ∧ (s.apply m - t.apply n).natAbs ≤ m + n := by
  cases s <;> cases t <;> simp only [Sign.apply] <;> omega

/-- One more than a finite number is finite. -/
theorem isFinite_add_one (hx : x.isFinite = true) : (x + 1).isFinite = true := by
  have hfits : Fits (UnpackedFloat.add .binary64 x.toModel.unpack (1 : Float).toModel.unpack) := by
    rw [unpack_one]
    obtain ⟨s, hs⟩ | ⟨s, m, e, hm, hu, hlt, hle⟩ := unpack_cases hx
    · rw [hs]
      change (-52 : Int) ≤ 971
      decide
    · rw [hu]
      exact fits_normalize (by omega) ((natAbs_apply_le ..).1.trans_lt (aligned_lt hlt hle))
  exact hfits.isFinite

/-- One less than a finite number is finite. -/
theorem isFinite_sub_one (hx : x.isFinite = true) : (x - 1).isFinite = true := by
  have hfits : Fits (UnpackedFloat.sub .binary64 x.toModel.unpack (1 : Float).toModel.unpack) := by
    rw [unpack_one]
    obtain ⟨s, hs⟩ | ⟨s, m, e, hm, hu, hlt, hle⟩ := unpack_cases hx
    · rw [hs]
      change (-52 : Int) ≤ 971
      decide
    · rw [hu]
      exact fits_normalize (by omega) ((natAbs_apply_le ..).2.trans_lt (aligned_lt hlt hle))
  exact hfits.isFinite

end Spreadsheet.Binary64
