import Spreadsheet.Proofs.Formula.Read
import Spreadsheet.Proofs.Number.Whole

/-!
# Quotients and remainders of whole parts

Quotient and remainder take the whole parts of their operands and clamp them to words of
sixty-four bits. What they answer is the number nearest to the exact quotient or remainder of the
clamped operands, and an error where these have none. So an answer is exact where the whole parts
are words. Where one is not, the answer is that for the word which stands in for it.
-/

namespace Spreadsheet

open Binary64

namespace Formula

variable {m n : ℤ} {a b x : Float} {v : Value} {f : ℤ → ℤ → ℤ}

/-- Whole numbers that are words of sixty-four bits with a sign. -/
def IsWord (n : ℤ) : Prop := -2 ^ 63 ≤ n ∧ n < 2 ^ 63

instance (n : ℤ) : Decidable (IsWord n) := inferInstanceAs (Decidable (_ ∧ _))

theorem clampWord_eq (n : ℤ) : clampWord n = max (-2 ^ 63) (min n (2 ^ 63 - 1)) := rfl

/-- A whole number is not clamped exactly if it is a word. -/
theorem clampWord_eq_self_iff : clampWord n = n ↔ IsWord n := by
  rw [clampWord_eq, IsWord]
  omega

theorem isWord_clampWord (n : ℤ) : IsWord (clampWord n) := by
  rw [clampWord_eq, IsWord]
  omega

theorem isWord_wholePart (x : Float) : IsWord (wholePart x) := isWord_clampWord _

theorem IsWord.natAbs_le (h : IsWord n) : n.natAbs ≤ 2 ^ 63 := by
  rw [IsWord] at h
  omega

/-- Whole numbers by which one of the other cannot be divided into a word. -/
def Undivided (m n : ℤ) : Prop := n = 0 ∨ m = -2 ^ 63 ∧ n = -1

instance (m n : ℤ) : Decidable (Undivided m n) := inferInstanceAs (Decidable (_ ∨ _))

/-- The quotient of two words is a word but for one. -/
theorem isWord_tdiv_iff (hm : IsWord m) (hn : n ≠ 0) :
    IsWord (m.tdiv n) ↔ ¬ Undivided m n := by
  have hquotient : (m.tdiv n).natAbs = m.natAbs / n.natAbs := Int.natAbs_tdiv m n
  rw [IsWord] at hm
  rw [Undivided, IsWord]
  by_cases hone : n.natAbs = 1
  · obtain rfl | rfl : n = 1 ∨ n = -1 := by omega
    · rw [Int.tdiv_one]
      omega
    · rw [Int.tdiv_neg, Int.tdiv_one]
      omega
  · have hhalf : m.natAbs / n.natAbs ≤ m.natAbs / 2 := Nat.div_le_div_left (by omega) (by decide)
    omega

/-- The remainder of a word is a word. -/
theorem isWord_tmod (m : ℤ) (hn : IsWord n) (hzero : n ≠ 0) : IsWord (m.tmod n) := by
  have hremainder : (m.tmod n).natAbs = m.natAbs % n.natAbs := Int.natAbs_tmod m n
  have hlt := Nat.mod_lt m.natAbs (Int.natAbs_pos.mpr hzero)
  rw [IsWord] at hn ⊢
  omega

/-- A remainder has the sign of the dividend. -/
theorem tmod_mul_self_nonneg (m n : ℤ) : 0 ≤ m.tmod n * m := by
  rcases le_total 0 m with hm | hm
  · exact mul_nonneg (Int.tmod_nonneg n hm) hm
  · have hneg := Int.tmod_nonneg n (neg_nonneg.mpr hm)
    rw [Int.neg_tmod, neg_nonneg] at hneg
    exact mul_nonneg_of_nonpos_of_nonpos hneg hm

/-- Only words are results. -/
theorem ofWord?_eq (n : ℤ) : ofWord? n = if IsWord n then some (ofInt n) else none := by
  simp only [ofWord?, clampWord_eq_self_iff]

theorem unpack_tolerance : tolerance.toModel.unpack =
    .finite .positive 7378697629483821 (-66) (by decide) := rfl

/-- Positive numbers are compared by their exponents, and then by their mantissas. -/
theorem lt_iff_of_positive {m n : Nat} {e f : Int} (hm : 0 < m) (hn : 0 < n) :
    Float.Model.UnpackedFloat.lt (.finite .positive m e hm) (.finite .positive n f hn) = true ↔
      e < f ∨ e = f ∧ m < n := by
  change (some ((compare e f).then (compare m n)) == some Ordering.lt) = true ↔ _
  rw [beq_iff_eq, Option.some.injEq, Ordering.then_eq_lt, Int.compare_eq_lt, Int.compare_eq_eq,
    Nat.compare_eq_lt]

/-- A number that is smaller than the tolerance is smaller than one. -/
theorem units_lt_of_abs_lt (hx : x.isFinite = true) (h : x.abs < tolerance) :
    units (code x) < unitsPerOne := by
  obtain ⟨hcode, hsign, hfinite⟩ := of_ofCode false (isFinite_iff.mp hx)
  rw [abs_eq hx] at h
  have hlt : Float.Model.UnpackedFloat.lt (ofCode false (code x)).toModel.unpack
      tolerance.toModel.unpack = true := of_decide_eq_true h
  rw [unpack_tolerance, unpack_eq hfinite, hcode, hsign, unpacked] at hlt
  have hexponent : code x / 2 ^ 52 - 1 + 53 ≤ unitBits := by
    have hunit : unitBits = 1074 := rfl
    by_cases hpos : 0 < mantissa (code x)
    · rw [dif_pos hpos] at hlt
      have hparts := (lt_iff_of_positive hpos (by decide)).mp hlt
      omega
    · rw [mantissa] at hpos
      split at hpos <;> omega
  calc units (code x) = mantissa (code x) * gap (code x) := units_eq _
    _ < 2 ^ 53 * gap (code x) := Nat.mul_lt_mul_of_pos_right (mantissa_lt _) (gap_pos _)
    _ = 2 ^ (code x / 2 ^ 52 - 1 + 53) := by rw [gap, Nat.mul_comm, Nat.pow_add]
    _ ≤ 2 ^ unitBits := Nat.pow_le_pow_right Nat.zero_lt_two hexponent
    _ = unitsPerOne := unitsPerOne_eq.symm

/-- The guard against small divisors refuses none that truncation does not refuse. -/
theorem wholePart_eq_zero (hb : b.isFinite = true) (h : b.abs < tolerance) : wholePart b = 0 := by
  have hzero : truncate b = 0 := by
    rw [truncate, Nat.div_eq_of_lt (units_lt_of_abs_lt hb h)]
    simp
  rw [wholePart, hzero]
  rfl

/-- The quotient of two numbers is that of their whole parts, where they can be divided. -/
theorem result?_quotient (a : Float) (hb : b.isFinite = true) :
    ProductOp.quotient.result? a b = if Undivided (wholePart a) (wholePart b) then none
      else some (ofInt ((wholePart a).tdiv (wholePart b))) := by
  by_cases hzero : wholePart b = 0
  · rw [ProductOp.result?, if_pos (.inr hzero), if_pos (.inl hzero)]
  · have hguard : ¬ (b.abs < tolerance ∨ wholePart b = 0) :=
      not_or.mpr ⟨fun h => hzero (wholePart_eq_zero hb h), hzero⟩
    rw [ProductOp.result?, if_neg hguard, ofWord?_eq]
    simp only [isWord_tdiv_iff (isWord_wholePart a) hzero, ite_not]

/-- The remainder of two numbers is that of their whole parts, where they can be divided. -/
theorem result?_remainder (a b : Float) :
    ProductOp.remainder.result? a b = if Undivided (wholePart a) (wholePart b) then none
      else some (ofInt ((wholePart a).tmod (wholePart b))) := by
  by_cases hzero : wholePart b = 0
  · rw [ProductOp.result?, if_pos hzero, if_pos (.inl hzero)]
  · have hremainder := isWord_tmod (wholePart a) (isWord_wholePart b) hzero
    rw [ProductOp.result?, if_neg hzero, ofWord?_eq, ofWord?_eq, if_pos hremainder]
    simp only [isWord_tdiv_iff (isWord_wholePart a) hzero, ite_not]
    split <;> rfl

/-- A number is answered only if the whole parts and their quotient are words, and then it is the
one that is nearest to what a function gives for the whole parts. -/
def ExactAnswer (f : ℤ → ℤ → ℤ) (a b : Float) (v : Value) : Prop :=
  ∀ x, v = .number x → IsWord (whole a) ∧ IsWord (whole b) ∧
    IsWord ((whole a).tdiv (whole b)) ∧ IsNearest x (f (whole a) (whole b))

/-- What is answered when whole parts are divided. -/
structure Divides (f : ℤ → ℤ → ℤ) (a b : Float) (v : Value) : Prop where
  /-- The answer is an error if the clamped whole parts have no quotient, and only then. -/
  error_iff : v = .error .invalid ↔ Undivided (clampWord (whole a)) (clampWord (whole b))
  /-- Any other answer is the number nearest to what the clamped whole parts give. -/
  number_iff : ∀ x, v = .number x ↔ ¬ Undivided (clampWord (whole a)) (clampWord (whole b)) ∧
    IsNearest x (f (clampWord (whole a)) (clampWord (whole b)))
  /-- The answer is exact if it is an error or if the whole parts are words, and only then. -/
  exact_iff : ExactAnswer f a b v ↔ v = .error .invalid ∨ IsWord (whole a) ∧ IsWord (whole b)

/-- A result that is worked out on whole parts divides as it should where the whole parts are exact.
-/
theorem divides_finite (ha : a.isFinite = true) (hb : b.isFinite = true)
    (hf : ∀ m n, IsWord m → IsWord n → ¬ Undivided m n → IsWord (f m n)) :
    Divides f a b (finite (if Undivided (wholePart a) (wholePart b) then none
      else some (ofInt (f (wholePart a) (wholePart b))))) := by
  rw [wholePart, wholePart, truncate_eq_whole ha, truncate_eq_whole hb]
  by_cases hdivided : Undivided (clampWord (whole a)) (clampWord (whole b))
  · rw [if_pos hdivided]
    have hno : ∀ x, finite none ≠ .number x := by simp [finite]
    exact ⟨iff_of_true rfl hdivided, fun x => iff_of_false (hno x) fun h => h.1 hdivided,
      iff_of_true (fun x hx => absurd hx (hno x)) (.inl rfl)⟩
  · have hword := hf _ _ (isWord_clampWord (whole a)) (isWord_clampWord (whole b)) hdivided
    have hnearest := isNearest_ofInt hword.natAbs_le
    rw [if_neg hdivided, finite, if_pos hnearest.finite]
    refine ⟨iff_of_false (by simp) hdivided, fun x => ⟨?_, ?_⟩, fun hexact => ?_, ?_⟩
    · rintro ⟨⟩
      exact ⟨hdivided, hnearest⟩
    · rintro ⟨_, hx⟩
      rw [hnearest.unique hx]
    · obtain ⟨hwordA, hwordB, _⟩ := hexact _ rfl
      exact .inr ⟨hwordA, hwordB⟩
    · rintro (h | ⟨hwordA, hwordB⟩) x hx
      · cases h
      · cases hx
        rw [clampWord_eq_self_iff.mpr hwordA, clampWord_eq_self_iff.mpr hwordB] at hdivided hnearest
        rw [clampWord_eq_self_iff.mpr hwordA, clampWord_eq_self_iff.mpr hwordB]
        exact ⟨hwordA, hwordB,
          (isWord_tdiv_iff hwordA fun hzero => hdivided (.inl hzero)).mpr hdivided, hnearest⟩

/-- The value of an operator between two trees whose values are numbers. -/
theorem valueUnder_product {read : Address → Value} {left right : Expr} (op : ProductOp)
    (hleft : left.valueUnder read = .number a) (hright : right.valueUnder read = .number b) :
    (Expr.binary (.product op) left right).valueUnder read = finite (op.result? a b) := by
  rw [Expr.valueUnder_binary, hleft, hright]
  rfl

/-- Between finite numbers, quotient and remainder are an error if the clamped whole parts have no
quotient, and otherwise the number nearest to the exact quotient or remainder of the clamped whole
parts. They are exact for the whole parts themselves if these are words or the answer is an error,
and only then. An exact remainder is smaller than the divisor and has the sign of the dividend. -/
theorem quotient_remainder_exact_iff {read : Address → Value} {left right : Expr}
    (hleft : left.valueUnder read = .number a) (hright : right.valueUnder read = .number b)
    (ha : a.isFinite = true) (hb : b.isFinite = true) :
    Divides Int.tdiv a b ((Expr.binary (.product .quotient) left right).valueUnder read) ∧
      Divides (fun m n => m - n * m.tdiv n) a b
        ((Expr.binary (.product .remainder) left right).valueUnder read) ∧
      (whole b ≠ 0 →
        (whole a - whole b * (whole a).tdiv (whole b)).natAbs < (whole b).natAbs ∧
        0 ≤ (whole a - whole b * (whole a).tdiv (whole b)) * whole a) := by
  refine ⟨?_, ?_, fun hzero => ⟨?_, ?_⟩⟩
  · rw [valueUnder_product _ hleft hright, result?_quotient a hb]
    exact divides_finite ha hb fun m n hm _ hdivided =>
      (isWord_tdiv_iff hm fun hzero => hdivided (.inl hzero)).mpr hdivided
  · rw [valueUnder_product _ hleft hright, result?_remainder]
    simp only [Int.tmod_def]
    refine divides_finite (f := fun m n => m - n * m.tdiv n) ha hb fun m n _ hn hdivided => ?_
    rw [← Int.tmod_def]
    exact isWord_tmod m hn fun hzero => hdivided (.inl hzero)
  · rw [← Int.tmod_def, Int.natAbs_tmod]
    exact Nat.mod_lt _ (Int.natAbs_pos.mpr hzero)
  · rw [← Int.tmod_def]
    exact tmod_mul_self_nonneg _ _

/-- The whole part of a number is its exact value cut off. -/
theorem whole_eq (hx : x.isFinite = true) (h : truncate x = n) : whole x = n :=
  (truncate_eq_whole hx).symm.trans h

/-- A word is converted to the number nearest to it. -/
theorem isNearest_of_eq (hn : n.natAbs ≤ 2 ^ 63) (h : ofInt n = x) : IsNearest x n :=
  h ▸ isNearest_ofInt hn

/-- Seven and nine tenths divided by two and a fifth give three, and minus seven divided by three
leaves minus one. -/
theorem quotient_remainder_exact_iff_small :
    let read : Address → Value := fun _ => .error .missing
    (Expr.binary (.product .quotient) (.number 7.9) (.number 2.2)).valueUnder read = .number 3 ∧
      (Expr.binary (.product .remainder) (.number (-7)) (.number 3)).valueUnder read =
        .number (-1) := by
  intro read
  constructor
  · have hfinite : (7.9 : Float).isFinite = true ∧ (2.2 : Float).isFinite = true := by
      decide +kernel
    have hdivides : Divides Int.tdiv 7.9 2.2
        ((Expr.binary (.product .quotient) (.number 7.9) (.number 2.2)).valueUnder read) :=
      (quotient_remainder_exact_iff rfl rfl hfinite.1 hfinite.2).1
    have hleft : whole 7.9 = 7 := whole_eq hfinite.1 (by decide +kernel)
    have hright : whole 2.2 = 2 := whole_eq hfinite.2 (by decide +kernel)
    rw [hdivides.number_iff, hleft, hright]
    exact ⟨by decide, isNearest_of_eq (n := 3) (by decide) (by decide +kernel)⟩
  · have hfinite : (-7 : Float).isFinite = true ∧ (3 : Float).isFinite = true := by
      decide +kernel
    have hdivides : Divides (fun m n => m - n * m.tdiv n) (-7) 3
        ((Expr.binary (.product .remainder) (.number (-7)) (.number 3)).valueUnder read) :=
      (quotient_remainder_exact_iff rfl rfl hfinite.1 hfinite.2).2.1
    have hleft : whole (-7) = -7 := whole_eq hfinite.1 (by decide +kernel)
    have hright : whole 3 = 3 := whole_eq hfinite.2 (by decide +kernel)
    rw [hdivides.number_iff, hleft, hright]
    exact ⟨by decide, isNearest_of_eq (n := -1) (by decide) (by decide +kernel)⟩

/-- A dividend of `10 ^ 19` is no word. The quotient is answered for the largest word instead. -/
theorem not_exactAnswer_large :
    let v := (Expr.binary (.product .quotient) (.number 1e19) (.number 1)).valueUnder
      fun _ => .error .missing
    v = .number 9223372036854775808 ∧ ¬ ExactAnswer Int.tdiv 1e19 1 v := by
  intro v
  have hresult : finite (ProductOp.quotient.result? 1e19 1) = .number 9223372036854775808 := by
    decide +kernel
  have hv : v = .number 9223372036854775808 := (valueUnder_product _ rfl rfl).trans hresult
  refine ⟨hv, fun hexact => ?_⟩
  obtain ⟨hword, _⟩ := hexact _ hv
  rw [whole_eq (n := 10 ^ 19) (by decide +kernel) (by decide +kernel)] at hword
  exact absurd hword (by decide)

end Formula

end Spreadsheet
