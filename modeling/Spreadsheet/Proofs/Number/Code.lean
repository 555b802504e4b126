import Mathlib.Order.Lattice.Nat
import Spreadsheet.Number.Binary64

/-!
# Signs and codes of finite numbers

A finite binary64 number is a sign and a code below infinity's, and every such pair is one: taking
a finite number apart and putting it together again loses nothing. The code in turn is a mantissa
and the exponent at which it stands.
-/

namespace Spreadsheet.Binary64

open Float.Model Float.Model.UnpackedFloat

/-- A bit pattern of a binary64 number. -/
abbrev Bits := BitVec Format.binary64.numBits

variable {b : Bits} {c : Nat} {negative : Bool} {x : Float}

theorem toNat_unpackExponent (b : Bits) :
    (unpackExponent b).toNat = b.toNat % 2 ^ 63 / 2 ^ 52 := by
  have hexponent : (unpackExponent b).toNat = b.toNat / 2 ^ 52 % 2 ^ 11 := by
    simp [unpackExponent, Nat.shiftRight_eq_div_pow]
  omega

theorem toBitVec_ofBitVec (v : BitVec 1) : (Sign.ofBitVec v).toBitVec = v := by
  revert v
  decide

/-- A bit pattern consists of its sign, exponent and mantissa. -/
theorem packComponents_unpack {exponent : BitVec 11} {mantissa : BitVec 52}
    (hexponent : unpackExponent b = exponent) (hmantissa : unpackMantissa b = mantissa) :
    packComponents Format.binary64 (.ofBitVec (unpackSign b)) exponent mantissa = b := by
  subst hexponent hmantissa
  unfold packComponents
  rw [toBitVec_ofBitVec]
  unfold unpackSign unpackExponent unpackMantissa
  simp only [BitVec.extractLsb]
  ext i hi
  grind

theorem toNat_one_append (mantissa : BitVec 52) :
    (1#1 ++ mantissa).toNat = 2 ^ 52 + mantissa.toNat := by
  rw [BitVec.toNat_append, ← Nat.shiftLeft_add_eq_or_of_lt mantissa.isLt]
  rfl

/-- A mantissa of fifty-three bits is packed without the first one. -/
theorem pack_normal {sign : Sign} {m : Nat} {e : Int} (exponent : Nat) (hpos : 0 < m)
    (hm : 2 ^ 52 ≤ m) (hm' : m < 2 ^ 53) (he : e = exponent - 1075) (hexponent : exponent < 2047) :
    UnpackedFloat.pack .binary64 (.finite sign m e hpos) =
      packComponents .binary64 sign (BitVec.ofNat 11 exponent) (BitVec.ofNat 52 m) := by
  have hbias : Format.binary64.exponentBias = 1023 := by decide
  have hlength : Format.binary64.mantissaBits = 53 := by decide
  have hlog : m.log2 + 1 = 53 := by
    have hle : 52 ≤ m.log2 := (Nat.le_log2 (by omega)).mpr hm
    have hlt : m.log2 < 53 := (Nat.log2_lt (by omega)).mpr hm'
    omega
  have hbiased : (e + (1023 : Nat) + (52 : Nat)).toNat = exponent := by omega
  unfold UnpackedFloat.pack
  simp only [hbias, hlength]
  rw [hbiased, if_neg (by omega), if_pos hlog]

/-- A shorter mantissa stands at the smallest exponent. -/
theorem pack_subnormal {sign : Sign} {m : Nat} {e : Int} (hpos : 0 < m) (hm : m < 2 ^ 52)
    (he : e = -1074) : UnpackedFloat.pack .binary64 (.finite sign m e hpos) =
      packComponents .binary64 sign 0 (BitVec.ofNat 52 m) := by
  subst he
  have hbias : Format.binary64.exponentBias = 1023 := by decide
  have hlength : Format.binary64.mantissaBits = 53 := by decide
  have hlog : m.log2 < 52 := (Nat.log2_lt (by omega)).mpr hm
  unfold UnpackedFloat.pack
  simp only [hbias, hlength]
  rw [if_neg (by decide), if_neg (by omega)]
  rfl

theorem unpackExponent_lt (h : unpackExponent b ≠ (-1#_)) : (unpackExponent b).toNat < 2047 := by
  have hlt : (unpackExponent b).toNat < 2 ^ 11 := (unpackExponent b).isLt
  have hne : (unpackExponent b).toNat ≠ 2047 := fun heq => h (BitVec.eq_of_toNat_eq heq)
  omega

/-- The parts that a sign and a mantissa at an exponent unpack to. -/
def unpacked (s : Sign) (m : Nat) (e : Int) : UnpackedFloat :=
  if h : 0 < m then .finite s m e h else .zero s

/-- A finite number consists of its parts. -/
theorem finite_eq_unpacked {s : Sign} {m m' : Nat} {e e' : Int} (hpos : 0 < m) (hm : m = m')
    (he : e = e') : .finite s m e hpos = unpacked s m' e' := by
  subst hm he
  exact (dif_pos hpos).symm

/-- The parts are a zero, or a finite number with a positive mantissa. -/
theorem unpacked_cases (s : Sign) (m : Nat) (e : Int) :
    unpacked s m e = .zero s ∨ ∃ hm : 0 < m, unpacked s m e = .finite s m e hm := by
  by_cases hm : 0 < m
  · exact .inr ⟨hm, dif_pos hm⟩
  · exact .inl (dif_neg hm)

theorem isFinite_unpacked (s : Sign) (m : Nat) (e : Int) : (unpacked s m e).isFinite = true := by
  obtain h | ⟨_, h⟩ := unpacked_cases s m e <;> rw [h] <;> rfl

theorem isNaN_unpacked (s : Sign) (m : Nat) (e : Int) : (unpacked s m e).isNaN = false := by
  obtain h | ⟨_, h⟩ := unpacked_cases s m e <;> rw [h] <;> rfl

theorem abs_unpacked (s : Sign) (m : Nat) (e : Int) :
    (unpacked s m e).abs = unpacked .positive m e := by
  by_cases hm : 0 < m
  · rw [unpacked, unpacked, dif_pos hm, dif_pos hm]
    rfl
  · rw [unpacked, unpacked, dif_neg hm, dif_neg hm]
    rfl

/-- A pattern with the first exponent unpacks to its mantissa at the smallest exponent. -/
theorem unpack_subnormal (h : unpackExponent b = 0#_) : UnpackedFloat.unpack .binary64 b =
    unpacked (.ofBitVec (unpackSign b)) (unpackMantissa b).toNat (-1074) := by
  have hlast : unpackExponent b ≠ (-1#_) := by rw [h]; decide
  have hbias : Format.binary64.exponentBias = 1023 := by decide
  have hexponent : ((unpackExponent b).toNat : Int) = 0 := by rw [h]; rfl
  unfold UnpackedFloat.unpack
  rw [if_neg hlast, if_pos h, hbias]
  by_cases hzero : unpackMantissa b = 0#_
  · rw [dif_pos hzero, hzero]
    rfl
  · have hpos : 0 < (unpackMantissa b).toNat :=
      Nat.pos_of_ne_zero fun hnat => hzero (BitVec.eq_of_toNat_eq hnat)
    rw [dif_neg hzero]
    exact finite_eq_unpacked hpos rfl (by rw [hexponent]; rfl)

/-- A pattern with an exponent between the first and the last unpacks to a mantissa of fifty-three
bits. -/
theorem unpack_normal (h : unpackExponent b ≠ (-1#_)) (hlarge : unpackExponent b ≠ 0#_) :
    UnpackedFloat.unpack .binary64 b = unpacked (.ofBitVec (unpackSign b))
      (2 ^ 52 + (unpackMantissa b).toNat) ((unpackExponent b).toNat - 1075) := by
  have hbias : Format.binary64.exponentBias = 1023 := by decide
  have hone := toNat_one_append (unpackMantissa b)
  unfold UnpackedFloat.unpack
  rw [if_neg h, if_neg hlarge, hbias]
  exact finite_eq_unpacked (by omega) hone rfl

/-- Taking the bit pattern of a finite number apart and putting it together again changes
nothing. -/
theorem pack_unpack (h : unpackExponent b ≠ (-1#_)) :
    UnpackedFloat.pack .binary64 (UnpackedFloat.unpack .binary64 b) = b := by
  have hmantissa : (unpackMantissa b).toNat < 2 ^ 52 := (unpackMantissa b).isLt
  by_cases hsmall : unpackExponent b = 0#_
  · rw [unpack_subnormal hsmall, unpacked]
    by_cases hpos : 0 < (unpackMantissa b).toNat
    · rw [dif_pos hpos, pack_subnormal hpos hmantissa rfl, BitVec.ofNat_toNat, BitVec.setWidth_eq]
      exact packComponents_unpack hsmall rfl
    · rw [dif_neg hpos]
      exact packComponents_unpack hsmall (BitVec.eq_of_toNat_eq (Nat.eq_zero_of_not_pos hpos))
  · rw [unpack_normal h hsmall, unpacked, dif_pos (by omega),
      pack_normal (unpackExponent b).toNat _ (by omega) (by omega) rfl (unpackExponent_lt h),
      BitVec.ofNat_toNat, BitVec.setWidth_eq]
    refine packComponents_unpack rfl (BitVec.eq_of_toNat_eq ?_)
    change _ = (2 ^ 52 + (unpackMantissa b).toNat) % 2 ^ 52
    rw [Nat.add_mod_left, Nat.mod_eq_of_lt hmantissa]

/-- A pattern has another exponent than the last exactly if its code is below infinity's. -/
theorem unpackExponent_ne_iff : unpackExponent b ≠ (-1#_) ↔ b.toNat % 2 ^ 63 < infinityCode := by
  have hlt : (unpackExponent b).toNat < 2 ^ 11 := (unpackExponent b).isLt
  have hmax : unpackExponent b = (-1#_) ↔ (unpackExponent b).toNat = 2047 :=
    ⟨fun h => by rw [h]; rfl, fun h => BitVec.eq_of_toNat_eq h⟩
  rw [Ne, hmax, toNat_unpackExponent, infinityCode]
  rw [toNat_unpackExponent] at hlt
  omega

/-- Finite numbers are those without the last exponent. -/
theorem isFinite_unpack_iff :
    (UnpackedFloat.unpack .binary64 b).isFinite = true ↔ unpackExponent b ≠ (-1#_) := by
  by_cases h : unpackExponent b = (-1#_)
  · refine iff_of_false ?_ (not_not.mpr h)
    unfold UnpackedFloat.unpack
    rw [if_pos h]
    by_cases hzero : unpackMantissa b = 0#_
    · rw [if_pos hzero]
      exact Bool.false_ne_true
    · rw [if_neg hzero]
      exact Bool.false_ne_true
  · refine iff_of_true ?_ h
    by_cases hsmall : unpackExponent b = 0#_
    · rw [unpack_subnormal hsmall, isFinite_unpacked]
    · rw [unpack_normal h hsmall, isFinite_unpacked]

/-- A number is finite if its code comes before infinity's. -/
theorem isFinite_iff : x.isFinite = true ↔ code x < infinityCode :=
  isFinite_unpack_iff.trans unpackExponent_ne_iff

/-- A bit pattern with a code below infinity's is that of the number it stands for. -/
theorem toBits_ofBits {bits : UInt64} (h : bits.toNat % 2 ^ 63 < infinityCode) :
    (Float.ofBits bits).toBits = bits := by
  have hpack := pack_unpack (unpackExponent_ne_iff.mpr h)
  exact UInt64.toBitVec_inj.mp hpack

theorem toBits_inj {x y : Float} (h : x.toBits = y.toBits) : x = y := by
  obtain ⟨⟨bits, hbits⟩⟩ := x
  obtain ⟨⟨bits', hbits'⟩⟩ := y
  obtain rfl : bits = bits' := h
  rfl

theorem code_eq (x : Float) : code x = x.toBits.toNat % 2 ^ 63 := rfl

theorem isNegative_eq (x : Float) : isNegative x = decide (2 ^ 63 ≤ x.toBits.toNat) := rfl

theorem ofCode_eq (negative : Bool) (c : Nat) : ofCode negative c =
    Float.ofBits (UInt64.ofNat (if negative then 2 ^ 63 + c else c)) := rfl

/-- The bit pattern of a number is its code, with the sign bit above it. -/
theorem toNat_toBits (x : Float) :
    x.toBits.toNat = if isNegative x then 2 ^ 63 + code x else code x := by
  have hlt : x.toBits.toNat < 2 ^ 64 := x.toBits.toNat_lt
  simp only [isNegative_eq, code_eq, decide_eq_true_eq]
  split <;> omega

/-- A finite number is given by its sign and its code. -/
theorem ofCode_code (hx : x.isFinite = true) : ofCode (isNegative x) (code x) = x := by
  rw [ofCode_eq, ← toNat_toBits, UInt64.ofNat_toNat]
  exact toBits_inj (toBits_ofBits (isFinite_iff.mp hx))

/-- Every sign and code below infinity's give a finite number. -/
theorem of_ofCode (negative : Bool) (hc : c < infinityCode) :
    code (ofCode negative c) = c ∧ isNegative (ofCode negative c) = negative ∧
      (ofCode negative c).isFinite = true := by
  have hlt : c < 2 ^ 63 := Nat.lt_trans hc (by decide)
  have hbits : (ofCode negative c).toBits.toNat = if negative then 2 ^ 63 + c else c := by
    have hnat : (UInt64.ofNat (if negative then 2 ^ 63 + c else c)).toNat =
        if negative then 2 ^ 63 + c else c := by
      rw [UInt64.toNat_ofNat']
      exact Nat.mod_eq_of_lt (by split <;> omega)
    rw [ofCode_eq, toBits_ofBits, hnat]
    rw [hnat]
    split <;> omega
  have hcode : code (ofCode negative c) = c := by
    rw [code_eq, hbits]
    split <;> omega
  refine ⟨hcode, ?_, isFinite_iff.mpr (by rwa [hcode])⟩
  rw [isNegative_eq, hbits]
  cases negative
  · simp only [Bool.false_eq_true, if_false, decide_eq_false_iff_not]
    omega
  · simp only [if_true, decide_eq_true_eq]
    omega

/-- How many bits there are between one and a unit. -/
def unitBits : Nat := 1074

/-- The mantissa of a magnitude. -/
def mantissa (c : Nat) : Nat := if c < 2 ^ 52 then c else 2 ^ 52 + c % 2 ^ 52

theorem mantissa_lt (c : Nat) : mantissa c < 2 ^ 53 := by
  rw [mantissa]
  split <;> omega

theorem toNat_unpackMantissa (b : Bits) : (unpackMantissa b).toNat = b.toNat % 2 ^ 52 := by
  simp [unpackMantissa]

theorem ofBitVec_unpackSign (b : Bits) :
    Sign.ofBitVec (unpackSign b) = if 2 ^ 63 ≤ b.toNat then .negative else .positive := by
  have hlt : b.toNat < 2 ^ 64 := b.isLt
  have hsign : (unpackSign b).toNat = b.toNat / 2 ^ 63 % 2 := by
    have h := BitVec.extractLsb'_toNat 63 1 b
    rwa [Nat.shiftRight_eq_div_pow] at h
  have hzero : unpackSign b = 0#1 ↔ ¬ 2 ^ 63 ≤ b.toNat := by
    rw [← BitVec.toNat_inj, hsign]
    change _ = 0 ↔ _
    omega
  rw [Sign.ofBitVec]
  simp only [hzero, ite_not]

/-- A finite number is a sign, and a mantissa at the exponent of the distance to the next
magnitude. -/
theorem unpack_eq (hx : x.isFinite = true) : x.toModel.unpack =
    unpacked (if isNegative x then .negative else .positive) (mantissa (code x))
      ((code x / 2 ^ 52 - 1 : Nat) - unitBits) := by
  have hunit : (unitBits : Int) = 1074 := rfl
  let b : Bits := x.toBits.toBitVec
  have hfinite : unpackExponent b ≠ (-1#_) := isFinite_unpack_iff.mp hx
  have hexponent : (unpackExponent b).toNat = code x / 2 ^ 52 := toNat_unpackExponent b
  have hmantissa : (unpackMantissa b).toNat = code x % 2 ^ 52 := by
    rw [toNat_unpackMantissa, code_eq]
    change x.toBits.toNat % 2 ^ 52 = _
    omega
  have hsign : Sign.ofBitVec (unpackSign b) =
      if isNegative x then .negative else .positive := by
    rw [ofBitVec_unpackSign, isNegative_eq]
    simp only [decide_eq_true_eq]
    rfl
  have hunpack : x.toModel.unpack = UnpackedFloat.unpack .binary64 b := rfl
  by_cases hsmall : unpackExponent b = 0#_
  · have hzero : code x / 2 ^ 52 = 0 := by
      rw [← hexponent, hsmall]
      rfl
    have hcode : (unpackMantissa b).toNat = code x := by omega
    have hparts : mantissa (code x) = code x := if_pos (by omega)
    rw [hunpack, unpack_subnormal hsmall, hsign, hcode, hparts, hzero]
    rfl
  · have hpos : 0 < code x / 2 ^ 52 := hexponent ▸
      Nat.pos_of_ne_zero fun h => hsmall (BitVec.eq_of_toNat_eq h)
    have hunits : ((code x / 2 ^ 52 : Nat) - 1075 : Int) =
        (code x / 2 ^ 52 - 1 : Nat) - unitBits := by omega
    have hparts : mantissa (code x) = 2 ^ 52 + code x % 2 ^ 52 := if_neg (by omega)
    rw [hunpack, unpack_normal hfinite hsmall, hsign, hexponent, hmantissa, hparts, hunits]

/-- The absolute value is the number with the code and the other sign. -/
theorem abs_eq (hx : x.isFinite = true) : x.abs = ofCode false (code x) := by
  obtain ⟨hcode, hsign, hfinite⟩ := of_ofCode false (isFinite_iff.mp hx)
  have habs : x.toModel.unpack.abs = (ofCode false (code x)).toModel.unpack := by
    rw [unpack_eq hx, unpack_eq hfinite, hcode, hsign, abs_unpacked]
    rfl
  have hpack := pack_unpack (isFinite_unpack_iff.mp hfinite)
  refine toBits_inj (UInt64.toBitVec_inj.mp ?_)
  change UnpackedFloat.pack .binary64 x.toModel.unpack.abs = _
  rw [habs]
  exact hpack

end Spreadsheet.Binary64
