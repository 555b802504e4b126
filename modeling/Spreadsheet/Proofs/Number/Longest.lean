import Mathlib.Tactic.Conv
import Spreadsheet.Proofs.Formula.Lexeme

/-!
# The longest numeral

The scanner takes the digits, the fraction and the exponent at the head of a text one after the
other, each as long as it goes. What it takes is the longest numeral there: no numeral at the head
of the text leaves less behind. So a shorter text that still holds the whole numeral is scanned the
same, however much of the text behind the numeral the scanner looked at.
-/

namespace Spreadsheet.Numeral

variable {n m : Numeral} {cs cs' left after digits : List Char}

/-- What is left behind an exponent, if there is one at the head of a text. -/
def afterExponent (cs : List Char) : List Char := ((Exponent.scan cs).map Prod.snd).getD cs

/-- A numeral is scanned part by part. -/
theorem scan_eq (cs : List Char) : scan cs =
    if (takeDigits cs).1 = [] ∧ (scanFraction (takeDigits cs).2).1.getD [] = [] then none
    else some (⟨(takeDigits cs).1, (scanFraction (takeDigits cs).2).1,
      (Exponent.scan (scanFraction (takeDigits cs).2).2).map Prod.fst⟩,
      afterExponent (scanFraction (takeDigits cs).2).2) := by
  simp only [scan, afterExponent]
  split
  · rfl
  · split <;> simp_all

/-- There is a numeral if there is a digit before or after the point. -/
theorem isSome_scan_iff : (scan cs).isSome = true ↔
    (takeDigits cs).1 ≠ [] ∨ (scanFraction (takeDigits cs).2).1.getD [] ≠ [] := by
  rw [scan_eq, ← not_and_or]
  split <;> simp_all

/-- What a scan leaves is what stands behind the longest exponent. -/
theorem snd_scan (h : scan cs = some (n, left)) :
    left = afterExponent (scanFraction (takeDigits cs).2).2 := by
  rw [scan_eq] at h
  split at h
  · cases h
  · exact (Prod.mk.inj (Option.some.inj h)).2.symm

theorem length_afterExponent_le (cs : List Char) : (afterExponent cs).length ≤ cs.length := by
  rw [afterExponent]
  cases h : Exponent.scan cs with
  | none => exact le_rfl
  | some found =>
    rw [← Exponent.text_append_of_scan h]
    simp

theorem length_scanFraction_le (cs : List Char) : (scanFraction cs).2.length ≤ cs.length := by
  conv_rhs => rw [← scanFraction_append cs]
  simp

/-- Digits in front do not stop the digits from being taken. -/
theorem length_dropWhile_append_le (hdigits : digits.all Char.isDigit = true) (left : List Char) :
    ((digits ++ left).dropWhile Char.isDigit).length ≤ left.length := by
  rw [List.dropWhile_append_of_pos (List.all_eq_true.mp hdigits)]
  exact (List.dropWhile_sublist _).length_le

/-- An exponent takes all digits that there are. -/
theorem afterExponent_append {e : Exponent} (h : e.WellFormed) (left : List Char) :
    (afterExponent (e.text ++ left)).length ≤ left.length := by
  let longer : Exponent := { e with digits := e.digits ++ left.takeWhile Char.isDigit }
  have hlonger : longer.WellFormed := by
    refine ⟨h.mark, h.sign, List.append_ne_nil_of_left_ne_nil h.digits_ne_nil _, ?_⟩
    rw [List.all_append, h.digits, List.all_takeWhile]
    rfl
  have htext : e.text ++ left = longer.text ++ left.dropWhile Char.isDigit := by
    simp [longer, Exponent.text]
  rw [htext, afterExponent, Exponent.scan_text_append hlonger fun _ => of_mem_head?_dropWhile]
  exact (List.dropWhile_sublist _).length_le

/-- What is left behind the digits and the fraction at the head of a text. -/
def afterMantissa (cs : List Char) : List Char := (scanFraction (takeDigits cs).2).2

/-- The parts of a mantissa with a fraction. -/
theorem takeDigits_mantissa (hn : n.WellFormed) {ds : List Char} (hfraction : n.fraction = some ds)
    (left : List Char) : takeDigits (n.mantissa ++ left) = (n.whole, '.' :: (ds ++ left)) := by
  rw [mantissa, hfraction, Option.map_some, Option.getD_some, List.append_assoc, List.cons_append]
  refine takeDigits_append_of_digits hn.whole fun c hc => ?_
  rw [← Option.some.inj hc]
  rfl

theorem mantissa_of_none (hfraction : n.fraction = none) : n.mantissa = n.whole := by
  rw [mantissa, hfraction, Option.map_none, Option.getD_none, List.append_nil]

/-- A mantissa leaves no more than what follows it. -/
theorem length_afterMantissa_le (hn : n.WellFormed) (left : List Char) :
    (afterMantissa (n.mantissa ++ left)).length ≤ left.length := by
  rw [afterMantissa]
  cases hfraction : n.fraction with
  | none =>
    rw [mantissa_of_none hfraction]
    exact (length_scanFraction_le _).trans (length_dropWhile_append_le hn.whole left)
  | some ds =>
    have hds := hn.fraction
    rw [hfraction, Option.getD_some] at hds
    rw [takeDigits_mantissa hn hfraction]
    exact length_dropWhile_append_le hds left

/-- A mantissa leaves what follows it if that goes on with neither a digit nor a point. -/
theorem afterMantissa_append (hn : n.WellFormed)
    (hleft : ∀ c ∈ left.head?, c.isDigit = false ∧ c ≠ '.') :
    afterMantissa (n.mantissa ++ left) = left := by
  rw [afterMantissa]
  cases hfraction : n.fraction with
  | none =>
    rw [mantissa_of_none hfraction,
      takeDigits_append_of_digits hn.whole fun c hc => (hleft c hc).1,
      scanFraction_of_ne fun c hc => (hleft c hc).2]
  | some ds =>
    have hds := hn.fraction
    rw [hfraction, Option.getD_some] at hds
    rw [takeDigits_mantissa hn hfraction, scanFraction,
      takeDigits_append_of_digits hds fun c hc => (hleft c hc).1]

/-- There is a numeral behind which a mantissa stands. -/
theorem isSome_scan_mantissa (hn : n.WellFormed) (left : List Char) :
    (scan (n.mantissa ++ left)).isSome = true := by
  have hne : ∀ {u : List Char}, u.all Char.isDigit = true → u ≠ [] →
      (takeDigits (u ++ left)).1 ≠ [] := by
    intro u hu hne
    rw [takeDigits, List.takeWhile_append_of_pos (List.all_eq_true.mp hu)]
    exact List.append_ne_nil_of_left_ne_nil hne _
  have hdigit := hn.digit
  have hds := hn.fraction
  rw [isSome_scan_iff]
  cases hfraction : n.fraction with
  | none =>
    rw [hfraction, Option.getD_none, or_iff_left (fun h => h rfl)] at hdigit
    rw [mantissa_of_none hfraction]
    exact .inl (hne hn.whole hdigit)
  | some ds =>
    rw [hfraction, Option.getD_some] at hdigit hds
    rw [takeDigits_mantissa hn hfraction]
    exact hdigit.imp_right (hne hds)

/-- A numeral leaves no more than any numeral at the head of the text. -/
theorem exists_scan_append (hn : n.WellFormed) (left : List Char) :
    ∃ m rest, scan (n.text ++ left) = some (m, rest) ∧ rest.length ≤ left.length := by
  have hsome := isSome_scan_mantissa hn ((n.exponent.map Exponent.text).getD [] ++ left)
  rw [← List.append_assoc, ← text_eq] at hsome
  obtain ⟨⟨m, rest⟩, hscan⟩ := Option.isSome_iff_exists.mp hsome
  refine ⟨m, rest, hscan, ?_⟩
  rw [snd_scan hscan, text_eq, List.append_assoc, ← afterMantissa]
  cases hexponent : n.exponent with
  | none =>
    exact (length_afterExponent_le _).trans (length_afterMantissa_le hn left)
  | some e =>
    have he := hn.exponent e hexponent
    rw [Option.map_some, Option.getD_some, afterMantissa_append hn]
    · exact afterExponent_append he left
    · intro c hc
      obtain rfl : e.mark = c := Option.some.inj hc
      rcases he.mark with hmark | hmark <;> rw [hmark] <;> decide

/-- A numeral is the longest one at the head of a text if it is scanned there. -/
theorem length_le_of_scan (h : scan cs = some (n, left)) (hm : m.WellFormed)
    (hhead : m.text <+: cs) : m.text.length ≤ n.text.length := by
  obtain ⟨rest, rfl⟩ := hhead
  obtain ⟨n', left', hscan, hle⟩ := exists_scan_append hm rest
  obtain ⟨rfl, rfl⟩ := Prod.mk.inj (Option.some.inj (h.symm.trans hscan))
  have hlength := congrArg List.length (text_append_of_scan h)
  rw [List.length_append, List.length_append] at hlength
  omega

/-- A well-formed numeral is found again from its text. -/
theorem WellFormed.eq_of_text (hn : n.WellFormed) (hm : m.WellFormed) (h : n.text = m.text) :
    n = m := by
  have hscan := hn.scan_text
  rw [h, hm.scan_text] at hscan
  exact (Prod.mk.inj (Option.some.inj hscan)).1.symm

/-- A shorter text that still holds a numeral is scanned the same. -/
theorem scan_append_of_scan (h : scan (cs ++ after) = some (n, left ++ after)) :
    scan cs = some (n, left) := by
  have hn := wellFormed_of_scan h
  have htext : cs = n.text ++ left := by
    have happend := text_append_of_scan h
    rw [← List.append_assoc] at happend
    exact (List.append_cancel_right happend).symm
  subst htext
  obtain ⟨m, rest, hscan, hle⟩ := exists_scan_append hn left
  have hm := wellFormed_of_scan hscan
  have happend := text_append_of_scan hscan
  have hmax := length_le_of_scan h hm (((List.prefix_append m.text rest).trans
    (happend ▸ List.prefix_rfl)).trans (List.prefix_append _ after))
  have hlength := congrArg List.length happend
  rw [List.length_append, List.length_append] at hlength
  obtain ⟨hsame, rfl⟩ := List.append_inj happend (by omega)
  rw [hscan, hm.eq_of_text hn hsame]

/-- If no numeral is scanned, none is scanned in a shorter text. -/
theorem scan_eq_none_of_append (h : scan (cs ++ after) = none) : scan cs = none := by
  cases hscan : scan cs with
  | none => rfl
  | some found =>
    obtain ⟨m, rest⟩ := found
    have htext := text_append_of_scan hscan
    obtain ⟨n, left, hscan', -⟩ := exists_scan_append (wellFormed_of_scan hscan) (rest ++ after)
    rw [← List.append_assoc, htext, h] at hscan'
    cases hscan'

end Spreadsheet.Numeral
