import Mathlib.Tactic.IntervalCases
import Mathlib.Computability.RegularExpressions
import Spreadsheet.Proofs.Formula.Lexeme

/-!
# The form of a number

The texts of well-formed numerals are a regular language, and so are those of the literals of a
formula, which may have a minus sign in front. Readers of decimal numbers accept a little more: a
plus sign, and words for what is not finite.
-/

namespace Spreadsheet

open RegularExpression Computability

variable {p : RegularExpression Char} {u : List Char}

namespace Form

/-- One character out of a list. -/
def oneOf : List Char → RegularExpression Char
  | [] => 0
  | c :: cs => char c + oneOf cs

/-- A part that may be left out. -/
def optional (p : RegularExpression Char) : RegularExpression Char := 1 + p

/-- A word, in small letters or capital ones. -/
def word : List Char → RegularExpression Char
  | [] => 1
  | c :: cs => oneOf [c, c.toUpper] * word cs

theorem mem_oneOf {cs : List Char} : u ∈ (oneOf cs).matches' ↔ ∃ c ∈ cs, u = [c] := by
  induction cs with
  | nil => simp [oneOf, matches'_zero, Language.notMem_zero]
  | cons d cs ih =>
    rw [oneOf, matches'_add, Language.mem_add, ih, matches'_char]
    simp only [List.exists_mem_cons_iff]
    rfl

theorem mem_optional : u ∈ (optional p).matches' ↔ u = [] ∨ u ∈ p.matches' := by
  rw [optional, matches'_add, Language.mem_add, matches'_epsilon, Language.mem_one]

theorem mem_char_mul {c : Char} :
    u ∈ (char c * p).matches' ↔ ∃ v ∈ p.matches', u = c :: v := by
  rw [matches'_mul, Language.mem_mul, matches'_char]
  constructor
  · rintro ⟨_, rfl, v, hv, rfl⟩
    exact ⟨v, hv, rfl⟩
  · rintro ⟨v, hv, rfl⟩
    exact ⟨[c], rfl, v, hv, rfl⟩

end Form

open Form

namespace Numeral

/-- A decimal digit. -/
def digitForm : RegularExpression Char := oneOf "0123456789".toList

/-- At least one digit. -/
def digitsForm : RegularExpression Char := digitForm * digitForm.star

/-- A mark, perhaps a sign, and at least one digit. -/
def exponentForm : RegularExpression Char :=
  oneOf ['e', 'E'] * (optional (oneOf ['+', '-']) * digitsForm)

/-- Digits, perhaps with a point and more digits after them, or a point with digits after it;
then perhaps an exponent. -/
def form : RegularExpression Char :=
  (digitsForm * optional (char '.' * digitForm.star) + char '.' * digitsForm) *
    optional exponentForm

/-- What a reader of decimal numbers accepts: perhaps a sign, then a word for an infinity or for no
number, or digits with or without a point among them, at least one digit on either side of it, and
perhaps an exponent. -/
def readableForm : RegularExpression Char :=
  optional (oneOf ['+', '-']) *
    (word "inf".toList + word "infinity".toList + word "nan".toList +
      (digitsForm + digitsForm * (char '.' * digitForm.star) +
        digitForm.star * (char '.' * digitsForm)) * optional exponentForm)

theorem mem_digits_iff {c : Char} : c ∈ "0123456789".toList ↔ c.isDigit = true := by
  constructor
  · intro hc
    exact List.all_eq_true.mp (by decide : "0123456789".toList.all Char.isDigit = true) c hc
  · intro hc
    have hrange := isDigit_iff.mp hc
    rw [← Char.ofNat_toNat c]
    generalize c.toNat = k at hrange
    obtain ⟨hmin, hmax⟩ := hrange
    interval_cases k <;> decide

theorem mem_star_digitForm : u ∈ digitForm.star.matches' ↔ u.all Char.isDigit = true := by
  rw [matches'_star, Language.mem_kstar, List.all_eq_true]
  constructor
  · rintro ⟨parts, rfl, hparts⟩ c hc
    obtain ⟨part, hpart, hc⟩ := List.mem_flatten.mp hc
    obtain ⟨d, hd, rfl⟩ := mem_oneOf.mp (hparts part hpart)
    rw [List.mem_singleton.mp hc]
    exact mem_digits_iff.mp hd
  · intro hdigits
    refine ⟨u.map ([·]), (List.flatMap_singleton' u).symm, fun part hpart => ?_⟩
    obtain ⟨c, hc, rfl⟩ := List.mem_map.mp hpart
    exact mem_oneOf.mpr ⟨c, mem_digits_iff.mpr (hdigits c hc), rfl⟩

theorem mem_digitsForm :
    u ∈ digitsForm.matches' ↔ u ≠ [] ∧ u.all Char.isDigit = true := by
  rw [digitsForm, matches'_mul, Language.mem_mul]
  constructor
  · rintro ⟨_, hfirst, rest, hrest, rfl⟩
    obtain ⟨c, hc, rfl⟩ := mem_oneOf.mp hfirst
    refine ⟨List.cons_ne_nil c rest, ?_⟩
    simp [mem_digits_iff.mp hc, mem_star_digitForm.mp hrest]
  · rintro ⟨hne, hdigits⟩
    obtain ⟨c, rest, rfl⟩ := List.exists_cons_of_ne_nil hne
    rw [List.all_cons, Bool.and_eq_true] at hdigits
    exact ⟨[c], mem_oneOf.mpr ⟨c, mem_digits_iff.mpr hdigits.1, rfl⟩, rest,
      mem_star_digitForm.mpr hdigits.2, rfl⟩

/-- The texts of the form are those of the well-formed exponents. -/
theorem mem_exponentForm :
    u ∈ exponentForm.matches' ↔ ∃ e : Exponent, e.WellFormed ∧ e.text = u := by
  simp only [exponentForm, matches'_mul, Language.mem_mul, mem_oneOf, mem_optional,
    mem_digitsForm]
  constructor
  · rintro ⟨_, ⟨mark, hmark, rfl⟩, _, ⟨sign, hsign, digits, ⟨hne, hdigits⟩, rfl⟩, rfl⟩
    have hmark : mark = 'e' ∨ mark = 'E' := by simpa using hmark
    rcases hsign with rfl | ⟨c, hc, rfl⟩
    · exact ⟨⟨mark, none, digits⟩, ⟨hmark, by simp, hne, hdigits⟩, rfl⟩
    · exact ⟨⟨mark, some c, digits⟩, ⟨hmark, by simpa using hc, hne, hdigits⟩, rfl⟩
  · rintro ⟨⟨mark, sign, digits⟩, he, rfl⟩
    refine ⟨[mark], ⟨mark, by simpa using he.mark, rfl⟩, sign.toList ++ digits,
      ⟨sign.toList, ?_, digits, ⟨he.digits_ne_nil, he.digits⟩, rfl⟩, rfl⟩
    cases sign with
    | none => exact .inl rfl
    | some c => exact .inr ⟨c, by simpa using he.sign c rfl, rfl⟩

/-- A well-formed exponent or nothing. -/
theorem mem_optional_exponentForm : u ∈ (optional exponentForm).matches' ↔
    ∃ exponent : Option Exponent, (∀ e ∈ exponent, e.WellFormed) ∧
      (exponent.map Exponent.text).getD [] = u := by
  rw [mem_optional, mem_exponentForm]
  constructor
  · rintro (rfl | ⟨e, he, rfl⟩)
    · exact ⟨none, by simp, rfl⟩
    · exact ⟨some e, by simpa using he, rfl⟩
  · rintro ⟨_ | e, he, rfl⟩
    · exact .inl rfl
    · exact .inr ⟨e, he e rfl, rfl⟩

/-- The texts of the form are those of the well-formed numerals. -/
theorem mem_form : u ∈ form.matches' ↔ ∃ n : Numeral, n.WellFormed ∧ n.text = u := by
  simp only [form, matches'_mul, matches'_add, Language.mem_mul, Language.mem_add,
    mem_optional_exponentForm]
  constructor
  · rintro ⟨_, hmantissa, _, ⟨exponent, hexponent, rfl⟩, rfl⟩
    rcases hmantissa with ⟨whole, hwhole, tail, htail, rfl⟩ | hpoint
    · obtain ⟨hne, hwhole⟩ := mem_digitsForm.mp hwhole
      rcases mem_optional.mp htail with rfl | htail
      · exact ⟨⟨whole, none, exponent⟩, ⟨hwhole, rfl, .inl hne, hexponent⟩, by simp [text]⟩
      · obtain ⟨ds, hds, rfl⟩ := mem_char_mul.mp htail
        exact ⟨⟨whole, some ds, exponent⟩,
          ⟨hwhole, mem_star_digitForm.mp hds, .inl hne, hexponent⟩, by simp [text]⟩
    · obtain ⟨ds, hds, rfl⟩ := mem_char_mul.mp hpoint
      obtain ⟨hne, hds⟩ := mem_digitsForm.mp hds
      exact ⟨⟨[], some ds, exponent⟩, ⟨rfl, hds, .inr hne, hexponent⟩, by simp [text]⟩
  · rintro ⟨n, hn, rfl⟩
    refine ⟨n.mantissa, ?_, _, ⟨n.exponent, hn.exponent, rfl⟩, rfl⟩
    have hdigit := hn.digit
    have hds := hn.fraction
    by_cases hwhole : n.whole = []
    · have hfraction := hdigit.resolve_left fun hne => hne hwhole
      cases hpoint : n.fraction with
      | none => simp [hpoint] at hfraction
      | some ds =>
        rw [hpoint, Option.getD_some] at hfraction hds
        refine .inr (mem_char_mul.mpr ⟨ds, mem_digitsForm.mpr ⟨hfraction, hds⟩, ?_⟩)
        simp [mantissa, hwhole, hpoint]
    · refine .inl ⟨n.whole, mem_digitsForm.mpr ⟨hwhole, hn.whole⟩, _, ?_, rfl⟩
      cases hpoint : n.fraction with
      | none => exact mem_optional.mpr (.inl rfl)
      | some ds =>
        rw [hpoint, Option.getD_some] at hds
        exact mem_optional.mpr (.inr (mem_char_mul.mpr ⟨ds, mem_star_digitForm.mpr hds, rfl⟩))

/-- A numeral with a sign or without one can be read. -/
theorem mem_readableForm (sign : Option Char) (hsign : ∀ c ∈ sign, c = '+' ∨ c = '-')
    {n : Numeral} (hn : n.WellFormed) : sign.toList ++ n.text ∈ readableForm.matches' := by
  have hds := hn.fraction
  have hdigit := hn.digit
  simp only [readableForm, matches'_mul, matches'_add, Language.mem_mul, Language.mem_add,
    mem_optional_exponentForm]
  refine ⟨sign.toList, ?_, n.text, .inr ⟨n.mantissa, ?_, _, ⟨n.exponent, hn.exponent, rfl⟩,
    rfl⟩, rfl⟩
  · cases sign with
    | none => exact mem_optional.mpr (.inl rfl)
    | some c =>
      exact mem_optional.mpr (.inr (mem_oneOf.mpr ⟨c, by simpa using hsign c rfl, rfl⟩))
  · cases hpoint : n.fraction with
    | none =>
      rw [hpoint] at hdigit
      refine .inl (.inl (mem_digitsForm.mpr ⟨?_, ?_⟩)) <;>
        rw [mantissa, hpoint, Option.map_none, Option.getD_none, List.append_nil]
      · exact hdigit.resolve_right fun hne => hne rfl
      · exact hn.whole
    | some ds =>
      rw [hpoint, Option.getD_some] at hds hdigit
      rw [mantissa, hpoint, Option.map_some, Option.getD_some]
      rcases hdigit with hne | hne
      · exact .inl (.inr ⟨n.whole, mem_digitsForm.mpr ⟨hne, hn.whole⟩, _,
          mem_char_mul.mpr ⟨ds, mem_star_digitForm.mpr hds, rfl⟩, rfl⟩)
      · exact .inr ⟨n.whole, mem_star_digitForm.mpr hn.whole, _,
          mem_char_mul.mpr ⟨ds, mem_digitsForm.mpr ⟨hne, hds⟩, rfl⟩, rfl⟩

end Numeral

namespace Formula.Literal

/-- A numeral, perhaps with a minus sign in front. -/
def form : RegularExpression Char := optional (char '-') * Numeral.form

/-- The texts of the form are those of the well-formed literals. -/
theorem mem_form :
    u ∈ form.matches' ↔ ∃ l : Literal, l.numeral.WellFormed ∧ l.text = u := by
  simp only [form, matches'_mul, Language.mem_mul, mem_optional, matches'_char, Numeral.mem_form]
  constructor
  · rintro ⟨_, rfl | rfl, _, ⟨n, hn, rfl⟩, rfl⟩
    · exact ⟨⟨false, n⟩, hn, rfl⟩
    · exact ⟨⟨true, n⟩, hn, rfl⟩
  · rintro ⟨⟨negative, n⟩, hn, rfl⟩
    cases negative with
    | true => exact ⟨['-'], .inr rfl, n.text, ⟨n, hn, rfl⟩, rfl⟩
    | false => exact ⟨[], .inl rfl, n.text, ⟨n, hn, rfl⟩, rfl⟩

/-- A well-formed literal is in the form that a reader of numbers accepts. -/
theorem mem_readableForm {l : Literal} (h : l.numeral.WellFormed) :
    l.text ∈ Numeral.readableForm.matches' := by
  obtain ⟨negative, n⟩ := l
  cases negative with
  | true => exact Numeral.mem_readableForm (some '-') (by simp) h
  | false => exact Numeral.mem_readableForm none (by simp) h

end Formula.Literal

end Spreadsheet
