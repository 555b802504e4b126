import Spreadsheet.Content
import Spreadsheet.Number.Display
import Spreadsheet.Proofs.Formula.Check
import Spreadsheet.Proofs.Number.Code
import Spreadsheet.Proofs.Number.Rounding

/-!
# Numbers read back

The text that displays a finite number is a numeral, perhaps with a minus sign, whose exact value
rounds to the number's magnitude: the digits of a whole number are exact, and the shortest decimal
is chosen among those that round back. So the text of a cell that was displayed reads as the same
number, but for the sign of zero.
-/

namespace Spreadsheet

open Binary64

variable {c : Nat} {x : Float}

namespace Decimal

theorem step_eq (grid : Nat) : step grid = 10 ^ grid * (2 * unitsPerOne) := by
  rw [step, Nat.pow_eq]

theorem position_eq (c : Nat) : position c = 2 * (units c * 10 ^ finest) := by
  rw [position, Nat.pow_eq, Nat.mul_assoc]

theorem lower_eq (c : Nat) : lower c = (units (c - 1) + units c) * 10 ^ finest := by
  rw [lower, Nat.pow_eq]

theorem upper_eq (c : Nat) : upper c = (units c + units (c + 1)) * 10 ^ finest := by
  rw [upper, Nat.pow_eq]

/-- A point in the interval between two midpoints is a decimal that rounds to the magnitude. -/
theorem roundsTo_iff {point : Nat} :
    roundsTo c (2 * point) = true ↔ Rounds c point (10 ^ finest) := by
  rw [roundsTo, lower_eq, upper_eq]
  constructor
  · intro h
    split at h
    · rw [Bool.and_eq_true, decide_eq_true_eq, decide_eq_true_eq] at h
      exact ⟨h.1, h.2, fun hodd => by omega⟩
    · rw [Bool.and_eq_true, decide_eq_true_eq, decide_eq_true_eq] at h
      exact ⟨h.1.le, h.2.le, fun _ => h⟩
  · rintro ⟨hlower, hupper, hodd⟩
    split
    · rw [Bool.and_eq_true, decide_eq_true_eq, decide_eq_true_eq]
      exact ⟨hlower, hupper⟩
    · rw [Bool.and_eq_true, decide_eq_true_eq, decide_eq_true_eq]
      exact hodd (by omega)

/-- A decimal rounds to the magnitude with a code. -/
def Rounds (c : Nat) (d : Decimal) : Prop :=
  Binary64.Rounds c (d.significand * 10 ^ d.exponent.toNat * unitsPerOne)
    (10 ^ (-d.exponent).toNat)

/-- A whole decimal rounds as the whole number does. -/
theorem rounds_whole_iff {n : Nat} :
    Rounds c ⟨n, 0⟩ ↔ Binary64.Rounds c (n * unitsPerOne) 1 := by
  simp only [Rounds, Int.neg_zero, Int.toNat_zero, Nat.pow_zero, Nat.mul_one]

/-- A multiple of a grid's step that rounds to a magnitude is a decimal that does. -/
theorem rounds_of_roundsTo {n grid : Nat} (h : roundsTo c (n * step grid) = true) :
    Rounds c ⟨n, (grid : Int) - finest⟩ := by
  have hpoint : n * step grid = 2 * (n * 10 ^ grid * unitsPerOne) := by
    rw [step_eq]
    generalize unitsPerOne = u
    ac_rfl
  -- The grid's power of ten and the finest grid's have a power in common.
  obtain ⟨k, hgrid, hfinest⟩ : ∃ k, grid = ((grid : Int) - finest).toNat + k ∧
      finest = (-((grid : Int) - finest)).toNat + k := ⟨min grid finest, by omega, by omega⟩
  have hnum : n * 10 ^ grid * unitsPerOne =
      n * 10 ^ ((grid : Int) - finest).toNat * unitsPerOne * 10 ^ k := by
    conv => lhs; rw [hgrid, Nat.pow_add]
    generalize unitsPerOne = u
    ac_rfl
  have hden : 10 ^ finest = 10 ^ (-((grid : Int) - finest)).toNat * 10 ^ k := by
    conv => lhs; rw [hfinest, Nat.pow_add]
  rw [hpoint, roundsTo_iff, hnum, hden] at h
  exact (rounds_mul_iff (Nat.pow_pos (by decide))).mp h

/-- A candidate rounds to the code that it was found for. -/
theorem roundsTo_of_candidate {n grid : Nat} (h : candidate c grid = some n) :
    roundsTo c (n * step grid) = true := by
  unfold candidate at h
  generalize roundsTo c = rounds at *
  generalize position c = point at *
  generalize step grid = unit at *
  simp only at h
  split at h
  · cases h
  · rename_i hbelow _
    rwa [← Option.some.inj h]
  · rename_i _ habove
    rwa [← Option.some.inj h]
  · rename_i hbelow habove
    split at h <;> rwa [← Option.some.inj h]

/-- On the finest grid some point just below the magnitude rounds to it. -/
theorem roundsTo_finest (hc : 0 < c) : roundsTo c (position c / step 0 * step 0) = true := by
  have hstep : step 0 ≤ 10 ^ finest := by decide +kernel
  have hpos : 0 < step 0 := by decide +kernel
  have hsplit : step 0 * (position c / step 0) + position c % step 0 = position c :=
    Nat.div_add_mod ..
  have hmod := Nat.mod_lt (position c) hpos
  have hcomm := Nat.mul_comm (position c / step 0) (step 0)
  have hbefore : units (c - 1) * 10 ^ finest + 10 ^ finest ≤ units c * 10 ^ finest := by
    rw [← Nat.succ_mul]
    exact Nat.mul_le_mul_right _ (units_strictMono (show c - 1 < c by omega))
  have hafter : units c * 10 ^ finest < units (c + 1) * 10 ^ finest :=
    Nat.mul_lt_mul_of_pos_right (units_lt_succ c) (Nat.pow_pos (by decide))
  have hposition := position_eq c
  have hlower : lower c < position c / step 0 * step 0 := by
    rw [lower_eq, Nat.add_mul]
    omega
  have hupper : position c / step 0 * step 0 < upper c := by
    rw [upper_eq, Nat.add_mul]
    omega
  rw [roundsTo]
  split
  · rw [Bool.and_eq_true, decide_eq_true_eq, decide_eq_true_eq]
    exact ⟨hlower.le, hupper.le⟩
  · rw [Bool.and_eq_true, decide_eq_true_eq, decide_eq_true_eq]
    exact ⟨hlower, hupper⟩

/-- What the search finds rounds to the magnitude. -/
theorem rounds_search (hc : 0 < c) (grid : Nat) : Rounds c (search c grid) := by
  induction grid with
  | zero =>
    have h := rounds_of_roundsTo (roundsTo_finest hc)
    rwa [Int.natCast_zero, Int.zero_sub] at h
  | succ grid ih =>
    rw [search]
    split
    · rename_i n hn
      exact rounds_of_roundsTo (roundsTo_of_candidate hn)
    · exact ih

/-- The shortest decimal rounds to its magnitude. -/
theorem rounds_shortest (hc : 0 < c) : Rounds c (shortest c) := rounds_search hc _

end Decimal

namespace Numeral

theorem lt_pow_length (n : Nat) : n < 10 ^ (Nat.toDigits 10 n).length :=
  (Nat.length_toDigits_le_iff (by decide) Nat.length_toDigits_pos).mp (Nat.le_refl _)

theorem pow_length_pred_le {n : Nat} (hn : 0 < n) : 10 ^ ((Nat.toDigits 10 n).length - 1) ≤ n := by
  rcases Nat.eq_zero_or_pos ((Nat.toDigits 10 n).length - 1) with hzero | hpos
  · rw [hzero, Nat.pow_zero]
    exact hn
  · refine Nat.le_of_not_lt fun hlt => ?_
    have hle := (Nat.length_toDigits_le_iff (by decide) hpos).mpr hlt
    omega

variable {significand : Nat} {scale : Int}

/-- A decimal that rounds to a magnitude other than zero is not zero. -/
theorem significand_pos (hc : 0 < c) (h : Decimal.Rounds c ⟨significand, scale⟩) :
    0 < significand := by
  refine Nat.pos_of_ne_zero fun hzero => ?_
  have hlower : (units (c - 1) + units c) * 10 ^ (-scale).toNat ≤
      2 * (significand * 10 ^ scale.toNat * unitsPerOne) := h.lower
  have hpos := Nat.mul_pos (Nat.add_pos_right (units (c - 1)) (units_pos hc))
    (Nat.pow_pos (by decide) : 0 < 10 ^ (-scale).toNat)
  rw [hzero, Nat.zero_mul, Nat.zero_mul] at hlower
  omega

/-- A decimal that rounds to a magnitude other than zero is not very small. -/
theorem le_top (hc : 0 < c) (h : Decimal.Rounds c ⟨significand, scale⟩) :
    -400 ≤ scale + (Nat.toDigits 10 significand).length := by
  by_contra hlt
  obtain ⟨k, hk, hsmall⟩ : ∃ k ≤ 401, 2 * unitsPerOne ≤ 10 ^ k :=
    ⟨401, le_rfl, by decide +kernel⟩
  have hunits : 0 < 2 * unitsPerOne := by decide +kernel
  have hlower : (units (c - 1) + units c) * 10 ^ (-scale).toNat ≤
      2 * (significand * 10 ^ scale.toNat * unitsPerOne) := h.lower
  rw [show scale.toNat = 0 by omega, Nat.pow_zero, Nat.mul_one] at hlower
  have hsum : 1 ≤ units (c - 1) + units c := Nat.add_pos_right _ (units_pos hc)
  refine Nat.lt_irrefl (significand * (2 * unitsPerOne)) ?_
  calc significand * (2 * unitsPerOne)
      < 10 ^ (Nat.toDigits 10 significand).length * (2 * unitsPerOne) :=
        Nat.mul_lt_mul_of_pos_right (lt_pow_length significand) hunits
    _ ≤ 10 ^ (Nat.toDigits 10 significand).length * 10 ^ k := Nat.mul_le_mul_left _ hsmall
    _ = 10 ^ ((Nat.toDigits 10 significand).length + k) := (Nat.pow_add ..).symm
    _ ≤ 10 ^ (-scale).toNat := Nat.pow_le_pow_right (by decide) (by omega)
    _ ≤ (units (c - 1) + units c) * 10 ^ (-scale).toNat := Nat.le_mul_of_pos_left _ hsum
    _ ≤ 2 * (significand * unitsPerOne) := hlower
    _ = significand * (2 * unitsPerOne) := Nat.mul_left_comm ..

/-- A decimal that rounds to a finite magnitude is not very large. -/
theorem top_le (hpos : 0 < significand) (hc : c < infinityCode)
    (h : Decimal.Rounds c ⟨significand, scale⟩) :
    scale + (Nat.toDigits 10 significand).length ≤ 400 := by
  by_contra hlt
  obtain ⟨k, hk, hlarge⟩ : ∃ k ≤ 400, units infinityCode < 10 ^ k * unitsPerOne :=
    ⟨400, le_rfl, by decide +kernel⟩
  have hupper : 2 * (significand * 10 ^ scale.toNat * unitsPerOne) ≤
      (units c + units (c + 1)) * 10 ^ (-scale).toNat := h.upper
  have hsum : units c + units (c + 1) ≤ 2 * units infinityCode := by
    have hthis := units_strictMono.monotone (Nat.le_of_lt hc)
    have hnext := units_strictMono.monotone (show c + 1 ≤ infinityCode from hc)
    omega
  refine Nat.lt_irrefl (significand * 10 ^ scale.toNat * unitsPerOne) ?_
  calc significand * 10 ^ scale.toNat * unitsPerOne
      ≤ units infinityCode * 10 ^ (-scale).toNat := by
        have hmul := Nat.mul_le_mul_right (10 ^ (-scale).toNat) hsum
        rw [Nat.mul_assoc] at hmul
        omega
    _ < 10 ^ k * unitsPerOne * 10 ^ (-scale).toNat :=
        Nat.mul_lt_mul_of_pos_right hlarge (Nat.pow_pos (by decide))
    _ = 10 ^ (k + (-scale).toNat) * unitsPerOne := by
        rw [Nat.mul_right_comm, ← Nat.pow_add]
    _ ≤ 10 ^ ((Nat.toDigits 10 significand).length - 1 + scale.toNat) * unitsPerOne :=
        Nat.mul_le_mul_right _ (Nat.pow_le_pow_right (by decide) (by omega))
    _ ≤ significand * 10 ^ scale.toNat * unitsPerOne := by
        rw [Nat.pow_add]
        exact Nat.mul_le_mul_right _ (Nat.mul_le_mul_right _ (pow_length_pred_le hpos))

/-- Reading a decimal that rounds to a finite magnitude other than zero gives its code, and neither
guard against very large and very small values stands in the way. -/
theorem nearestScaled_eq (hpos : 0 < c) (hc : c < infinityCode)
    (h : Decimal.Rounds c ⟨significand, scale⟩) : nearestScaled significand scale = c := by
  have hsignificand := significand_pos hpos h
  have hle := le_top hpos h
  have hge := top_le hsignificand hc h
  have hrounds : Binary64.Rounds c (significand * 10 ^ scale.toNat * unitsPerOne)
      (10 ^ (-scale).toNat) := h
  simp only [nearestScaled]
  rw [if_neg (by omega), if_neg (by omega)]
  split
  · rw [show scale.toNat = 0 by omega, Nat.pow_zero, Nat.mul_one] at hrounds
    rw [show scale.natAbs = (-scale).toNat by omega]
    exact nearestCode_eq (Nat.pow_pos (show 0 < 10 by decide)) hc hrounds
  · rw [show (-scale).toNat = 0 by omega, Nat.pow_zero] at hrounds
    rw [show scale.natAbs = scale.toNat by omega]
    exact nearestCode_eq Nat.one_pos hc hrounds

end Numeral

/-- A text is a numeral without an exponent that rounds to the magnitude with a code. -/
def Writes (c : Nat) (text : List Char) : Prop :=
  ∃ n : Numeral, n.WellFormed ∧ n.exponent = none ∧ n.text = text ∧
    Decimal.Rounds c ⟨n.significand, n.scale⟩

theorem all_isDigit_toDigits (n : Nat) : (Nat.toDigits 10 n).all Char.isDigit = true :=
  List.all_eq_true.mpr fun _ hc => Nat.isDigit_of_mem_toDigits (by decide) (by decide) hc

theorem all_isDigit_replicate (k : Nat) : (List.replicate k '0').all Char.isDigit = true :=
  List.all_eq_true.mpr fun _ hc => by rw [List.eq_of_mem_replicate hc]; rfl

/-- Digits write the whole number that they are the digits of. -/
theorem writes_digits {digits : List Char} (hne : digits ≠ [])
    (hdigits : digits.all Char.isDigit = true)
    (h : Binary64.Rounds c (Numeral.digitsValue digits * unitsPerOne) 1) : Writes c digits := by
  refine ⟨⟨digits, none, none⟩, ⟨hdigits, rfl, .inl hne, by simp⟩, rfl, ?_, ?_⟩
  · simp [Numeral.text]
  · have hsignificand : Numeral.significand ⟨digits, none, none⟩ = Numeral.digitsValue digits := by
      rw [Numeral.significand, Option.getD_none, List.append_nil]
    have hscale : Numeral.scale ⟨digits, none, none⟩ = 0 := rfl
    rw [hsignificand, hscale]
    exact Decimal.rounds_whole_iff.mpr h

/-- A whole number is written by its exact digits. -/
theorem writes_whole (hc : 0 < c) (hwhole : units c % unitsPerOne = 0) :
    Writes c (Nat.toDigits 10 (units c / unitsPerOne)) := by
  refine writes_digits Nat.toDigits_ne_nil (all_isDigit_toDigits _) ?_
  have hvalue : Numeral.digitsValue (Nat.toDigits 10 (units c / unitsPerOne)) =
      units c / unitsPerOne := Nat.ofDigitChars_ten_toDigits
  rw [hvalue, Nat.div_mul_cancel (Nat.dvd_of_mod_eq_zero hwhole)]
  exact rounds_units hc

/-- Digits with a point before the last of them. -/
theorem writes_point {digits : List Char} {places : Nat} (hlength : places < digits.length)
    (hdigits : digits.all Char.isDigit = true)
    (h : Decimal.Rounds c ⟨Numeral.digitsValue digits, -places⟩) :
    Writes c (digits.take (digits.length - places) ++
      '.' :: digits.drop (digits.length - places)) := by
  generalize hpoint : digits.length - places = point
  have hsplit : digits.take point ++ digits.drop point = digits := List.take_append_drop ..
  have hall : ∀ p ∈ [digits.take point, digits.drop point], p.all Char.isDigit = true := by
    rw [← hsplit, List.all_append, Bool.and_eq_true] at hdigits
    simpa using hdigits
  have hne : digits.take point ≠ [] := by
    refine List.ne_nil_of_length_pos ?_
    rw [List.length_take]
    omega
  let n : Numeral := ⟨digits.take point, some (digits.drop point), none⟩
  have hsignificand : n.significand = Numeral.digitsValue digits := by
    simp only [n, Numeral.significand, Option.getD_some, hsplit]
  have hscale : n.scale = -places := by
    have hplaces : (digits.drop point).length = places := by
      rw [List.length_drop]
      omega
    simp only [n, Numeral.scale, Option.getD_some, Option.map_none, Option.getD_none, hplaces,
      Int.zero_sub]
  refine ⟨n, ⟨hall _ (by simp [n]), hall _ (by simp [n]), .inl hne, by simp [n]⟩, rfl, ?_, ?_⟩
  · simp [n, Numeral.text]
  · rw [hsignificand, hscale]
    exact h

/-- A decimal is written positionally, with zeros around its digits where it needs them. -/
theorem writes_positional {d : Decimal} (h : d.Rounds c) : Writes c d.positional := by
  obtain ⟨significand, exponent⟩ := d
  simp only [Decimal.positional]
  split
  · rename_i hneg
    generalize hplaces : exponent.natAbs = places
    generalize hpadded : List.replicate (places + 1 - (Nat.toDigits 10 significand).length) '0' ++
      Nat.toDigits 10 significand = padded
    have hlength : places + 1 ≤ padded.length := by
      rw [← hpadded, List.length_append, List.length_replicate]
      omega
    have hdigits : padded.all Char.isDigit = true := by
      rw [← hpadded, List.all_append, all_isDigit_replicate, all_isDigit_toDigits]
      rfl
    have hvalue : Numeral.digitsValue padded = significand := by
      rw [Numeral.digitsValue, ← hpadded, Nat.ofDigitChars_append,
        Nat.ofDigitChars_replicate_zero, Nat.mul_zero, Nat.ofDigitChars_ten_toDigits]
    refine writes_point (by omega) hdigits ?_
    rw [hvalue, show -(places : Int) = exponent by omega]
    exact h
  · rename_i hnonneg
    refine writes_digits ?_ ?_ ?_
    · exact List.append_ne_nil_of_left_ne_nil Nat.toDigits_ne_nil _
    · rw [List.all_append, all_isDigit_replicate, all_isDigit_toDigits]
      rfl
    · have hvalue : Numeral.digitsValue (Nat.toDigits 10 significand ++
          List.replicate exponent.natAbs '0') = significand * 10 ^ exponent.toNat := by
        rw [Numeral.digitsValue, Nat.ofDigitChars_append, Nat.ofDigitChars_ten_toDigits,
          Nat.ofDigitChars_replicate_zero, Nat.mul_comm,
          show exponent.natAbs = exponent.toNat by omega]
      have hrounds : Binary64.Rounds c (significand * 10 ^ exponent.toNat * unitsPerOne)
          (10 ^ (-exponent).toNat) := h
      rw [show (-exponent).toNat = 0 by omega, Nat.pow_zero] at hrounds
      rw [hvalue]
      exact hrounds

/-- A text without blanks is trimmed to itself. -/
theorem Text.trim_eq_self {text : List Char} (h : ∀ ch ∈ text, Text.isBlank ch = false) :
    Text.trim text = text := by
  have hdrop : ∀ l : List Char, (∀ ch ∈ l, Text.isBlank ch = false) →
      l.dropWhile Text.isBlank = l := by
    intro l hl
    cases l with
    | nil => rfl
    | cons ch l => exact List.dropWhile_cons_of_neg (by simp [hl ch List.mem_cons_self])
  rw [Text.trim, hdrop text h, hdrop _ fun ch hch => h ch (List.mem_reverse.mp hch),
    List.reverse_reverse]

/-- A numeral with a sign or none in front is read as its value. -/
theorem Numeral.WellFormed.read?_text {n : Numeral} (hn : n.WellFormed) (negative : Bool) :
    Numeral.read? (if negative then '-' :: n.text else n.text) = n.value? negative := by
  have hscan := hn.scan_text
  cases negative with
  | true => simp [Numeral.read?, hscan]
  | false =>
    obtain ⟨ch, rest, htext, hminus, hplus⟩ := hn.exists_cons
    rw [htext] at hscan ⊢
    simp [Numeral.read?, hminus, hplus, hscan]

namespace Writes

variable {text : List Char}

theorem isWordChar_of_mem (h : Writes c text) {ch : Char} (hch : ch ∈ text) :
    isWordChar ch = true := by
  obtain ⟨n, hn, hexponent, rfl, _⟩ := h
  refine hn.isWordChar_of_mem_mantissa ?_
  rwa [Numeral.text_eq, hexponent, Option.map_none, Option.getD_none, List.append_nil] at hch

theorem ne_nil (h : Writes c text) : text ≠ [] := by
  obtain ⟨n, hn, _, rfl, _⟩ := h
  exact Numeral.text_ne_nil_of_scan hn.scan_text

/-- A text that writes a finite magnitude is read with the sign in front of it. -/
theorem read?_signed (h : Writes c text) (hpos : 0 < c) (hc : c < infinityCode)
    (negative : Bool) :
    Numeral.read? (if negative then '-' :: text else text) = some (ofCode negative c) := by
  obtain ⟨n, hn, _, rfl, hrounds⟩ := h
  rw [hn.read?_text, Numeral.value?, Numeral.nearestScaled_eq hpos hc hrounds]
  simp [(of_ofCode negative hc).2.2]

end Writes

namespace Number

/-- The text of a finite number other than zero writes its magnitude, with its sign in front. -/
theorem exists_writes_display (hx : x.isFinite = true) (hcode : code x ≠ 0) :
    ∃ text, Writes (code x) text ∧ display x = signed x text := by
  have hpos : 0 < code x := Nat.pos_of_ne_zero hcode
  rw [display, hx, if_neg (by simp), if_neg hcode]
  by_cases hwhole : isWhole x = true
  · rw [if_pos hwhole]
    exact ⟨_, writes_whole hpos (by simpa [isWhole] using hwhole), rfl⟩
  · rw [if_neg hwhole, plain, hx, if_neg (by simp), if_neg hcode]
    exact ⟨_, writes_positional (Decimal.rounds_shortest hpos), rfl⟩

/-- The text of a finite number consists of digits, points and minus signs. -/
theorem of_mem_display (hx : x.isFinite = true) {ch : Char} (hch : ch ∈ display x) :
    isWordChar ch = true ∨ ch = '-' := by
  by_cases hcode : code x = 0
  · rw [display, hx, if_neg (by simp), if_pos hcode, List.mem_singleton] at hch
    rw [hch]
    decide
  · obtain ⟨text, htext, hdisplay⟩ := exists_writes_display hx hcode
    rw [hdisplay, signed] at hch
    split at hch
    · exact (List.mem_cons.mp hch).symm.imp_left htext.isWordChar_of_mem
    · exact .inl (htext.isWordChar_of_mem hch)

theorem display_ne_nil (hx : x.isFinite = true) : display x ≠ [] := by
  by_cases hcode : code x = 0
  · rw [display, hx, if_neg (by simp), if_pos hcode]
    exact List.cons_ne_nil _ _
  · obtain ⟨text, htext, hdisplay⟩ := exists_writes_display hx hcode
    rw [hdisplay, signed]
    split
    · exact List.cons_ne_nil _ _
    · exact htext.ne_nil

end Number

namespace Content

/-- No finite number is displayed with a blank. -/
theorem not_isBlank_of_mem_display (hx : x.isFinite = true) {ch : Char}
    (hch : ch ∈ Number.display x) : Text.isBlank ch = false := by
  rcases Number.of_mem_display hx hch with hword | rfl
  · exact Formula.Token.not_isBlank_of_isWordChar hword
  · decide

/-- The text that displays a finite number is a literal. -/
theorem ofText_display (hx : x.isFinite = true) :
    ofText (String.ofList (Number.display x)) = .literal (String.ofList (Number.display x)) := by
  obtain ⟨ch, rest, hdisplay⟩ := List.exists_cons_of_ne_nil (Number.display_ne_nil hx)
  have hmem : ch ∈ Number.display x := by simp [hdisplay]
  have hblank : Text.isBlank ch = false := not_isBlank_of_mem_display hx hmem
  have hequals : ch ≠ '=' := by
    rintro rfl
    rcases Number.of_mem_display hx hmem with h | h <;> cases h
  rw [ofText, String.toList_ofList, hdisplay]
  simp [Text.allBlank, hblank, hequals]

/-- The text that displays a finite number reads as the number, unless it is negative zero. -/
theorem number?_display (hx : x.isFinite = true) (hzero : code x = 0 → isNegative x = false) :
    (ofText (String.ofList (Number.display x))).number? = some x := by
  rw [ofText_display hx, number?, String.toList_ofList,
    Text.trim_eq_self fun ch hch => not_isBlank_of_mem_display hx hch]
  by_cases hcode : code x = 0
  · have hread : Numeral.read? ['0'] = some (ofCode false 0) := by decide +kernel
    have hx' : x = ofCode false 0 := by
      rw [← ofCode_code hx, hcode, hzero hcode]
    rw [Number.display, hx, if_neg (by simp), if_pos hcode, hread, ← hx']
  · obtain ⟨text, htext, hdisplay⟩ := Number.exists_writes_display hx hcode
    rw [hdisplay, Number.signed, htext.read?_signed (Nat.pos_of_ne_zero hcode)
      (isFinite_iff.mp hx) (isNegative x), ofCode_code hx]

end Content

end Spreadsheet
