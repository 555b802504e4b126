import Spreadsheet.Number.Binary64

/-!
# Decimal numerals

A numeral is digits with an optional point, at least one digit before or after it, and an
optional exponent: a mark `e` or `E`, perhaps a sign, and digits. `Numeral.scan` takes the
longest numeral at the head of a text, so a mark without digits stays behind. A numeral
denotes the binary64 number nearest to its exact value.
-/

namespace Spreadsheet

/-- The exponent of a numeral as written. -/
structure Numeral.Exponent where
  /-- The mark, `e` or `E`. -/
  mark : Char
  /-- The sign, if one is written. -/
  sign : Option Char
  /-- The digits, at least one. -/
  digits : List Char
  deriving DecidableEq, Repr

/-- An unsigned decimal numeral as written. -/
structure Numeral where
  /-- The digits before the point. -/
  whole : List Char
  /-- The digits after the point, if there is a point. -/
  fraction : Option (List Char)
  /-- The exponent, if there is one. -/
  exponent : Option Numeral.Exponent
  deriving DecidableEq, Repr

namespace Numeral

/-- The digits at the head of a text and what follows them. -/
def takeDigits (text : List Char) : List Char × List Char :=
  (text.takeWhile Char.isDigit, text.dropWhile Char.isDigit)

/-- The characters of an exponent. -/
def Exponent.text (e : Exponent) : List Char := e.mark :: (e.sign.toList ++ e.digits)

/-- The characters of a numeral. -/
def text (n : Numeral) : List Char :=
  n.whole ++ (n.fraction.map ('.' :: ·)).getD [] ++ (n.exponent.map Exponent.text).getD []

/-- An exponent at the head of a text: a mark, perhaps a sign, and at least one digit. -/
def Exponent.scan : List Char → Option (Exponent × List Char)
  | [] => none
  | mark :: rest =>
    if mark = 'e' ∨ mark = 'E' then
      let (sign, after) : Option Char × List Char := match rest with
        | c :: after => if c = '+' ∨ c = '-' then (some c, after) else (none, rest)
        | [] => (none, [])
      let (digits, left) := takeDigits after
      if digits = [] then none else some (⟨mark, sign, digits⟩, left)
    else none

/-- A point and the digits after it, if the text starts with a point. -/
def scanFraction : List Char → Option (List Char) × List Char
  | '.' :: rest => let (digits, left) := takeDigits rest; (some digits, left)
  | rest => (none, rest)

/-- The longest numeral at the head of a text and what follows it. -/
def scan (text : List Char) : Option (Numeral × List Char) :=
  let (whole, afterWhole) := takeDigits text
  let (fraction, afterFraction) := scanFraction afterWhole
  if whole = [] ∧ fraction.getD [] = [] then none
  else match Exponent.scan afterFraction with
    | some (exponent, left) => some (⟨whole, fraction, some exponent⟩, left)
    | none => some (⟨whole, fraction, none⟩, afterFraction)

/-- The value of decimal digits. -/
def digitsValue (digits : List Char) : Nat := Nat.ofDigitChars 10 digits 0

/-- The power of ten that an exponent names. -/
def Exponent.value (e : Exponent) : Int :=
  if e.sign = some '-' then -(digitsValue e.digits : Int) else digitsValue e.digits

/-- The digits of a numeral read as one whole number. -/
def significand (n : Numeral) : Nat := digitsValue (n.whole ++ n.fraction.getD [])

/-- The power of ten that scales the significand. -/
def scale (n : Numeral) : Int :=
  ((n.exponent.map Exponent.value).getD 0) - (n.fraction.getD []).length

/-- The code of the magnitude nearest to `significand * 10 ^ scale`. A value whose first digit
stands beyond every binary64 magnitude, or below half the smallest, is settled by its size. -/
def nearestScaled (significand : Nat) (scale : Int) : Nat :=
  let top := scale + (Nat.toDigits 10 significand).length
  if significand = 0 ∨ top < -400 then 0
  else if 400 < top then Binary64.infinityCode
  else if scale < 0 then Binary64.nearestCode significand (Nat.pow 10 scale.natAbs)
  else Binary64.nearestCode (significand * Nat.pow 10 scale.natAbs) 1

/-- The number that a numeral with a sign denotes, if it is finite. -/
def value? (n : Numeral) (negative : Bool) : Option Float :=
  let x := Binary64.ofCode negative (nearestScaled n.significand n.scale)
  if x.isFinite then some x else none

/-- The finite number that a whole text writes: perhaps a sign, then a numeral and nothing
after it. -/
def read? (text : List Char) : Option Float :=
  let (negative, body) : Bool × List Char := match text with
    | '-' :: rest => (true, rest)
    | '+' :: rest => (false, rest)
    | _ => (false, text)
  match scan body with
  | some (n, []) => n.value? negative
  | _ => none

/-- Taking the digits at the head of a text loses nothing. -/
theorem takeDigits_append (text : List Char) : (takeDigits text).1 ++ (takeDigits text).2 = text :=
  List.takeWhile_append_dropWhile

/-- Taking a fraction from the head of a text loses nothing. -/
theorem scanFraction_append (cs : List Char) :
    (((scanFraction cs).1.map ('.' :: ·)).getD []) ++ (scanFraction cs).2 = cs := by
  unfold scanFraction
  split
  · simpa using takeDigits_append _
  · simp

/-- An exponent that is taken from a text stands at its head. -/
theorem Exponent.text_append_of_scan {cs left : List Char} {e : Exponent}
    (h : Exponent.scan cs = some (e, left)) : e.text ++ left = cs := by
  unfold Exponent.scan at h
  split at h
  · simp at h
  · rename_i mark rest
    split at h
    · split at h
      rename_i sign after heq
      simp only at h
      split at h
      · simp at h
      · simp only [Option.some.injEq, Prod.mk.injEq] at h
        obtain ⟨rfl, rfl⟩ := h
        have hd := takeDigits_append after
        simp only [Exponent.text, List.cons_append, List.append_assoc, List.cons.injEq, true_and]
        rw [hd]
        split at heq
        · rename_i c tail
          split at heq
          · simp only [Prod.mk.injEq] at heq
            obtain ⟨rfl, rfl⟩ := heq
            rfl
          · simp only [Prod.mk.injEq] at heq
            obtain ⟨rfl, rfl⟩ := heq
            rfl
        · simp only [Prod.mk.injEq] at heq
          obtain ⟨rfl, rfl⟩ := heq
          rfl
    · simp at h

/-- A scanned numeral and what follows it make up the text. -/
theorem text_append_of_scan {cs left : List Char} {n : Numeral}
    (h : scan cs = some (n, left)) : n.text ++ left = cs := by
  have hw := takeDigits_append cs
  have hf := scanFraction_append (takeDigits cs).2
  simp only [scan] at h
  split at h
  · simp at h
  · split at h
    · rename_i e rest he
      simp only [Option.some.injEq, Prod.mk.injEq] at h
      obtain ⟨rfl, rfl⟩ := h
      have hx := Exponent.text_append_of_scan he
      simp only [text, Option.map_some, Option.getD_some, List.append_assoc]
      rw [hx, hf, hw]
    · simp only [Option.some.injEq, Prod.mk.injEq] at h
      obtain ⟨rfl, rfl⟩ := h
      simp only [text, Option.map_none, Option.getD_none, List.append_nil, List.append_assoc]
      rw [hf, hw]

/-- A scanned numeral has a character. -/
theorem text_ne_nil_of_scan {cs left : List Char} {n : Numeral}
    (h : scan cs = some (n, left)) : n.text ≠ [] := by
  simp only [scan] at h
  split at h
  · simp at h
  · rename_i hne
    have key : ∀ (e : Option Exponent),
        (Numeral.mk (takeDigits cs).1 (scanFraction (takeDigits cs).2).1 e).text ≠ [] := by
      intro e he
      simp only [text, List.append_eq_nil_iff] at he
      obtain ⟨⟨hw, hf⟩, _⟩ := he
      cases hc : (scanFraction (takeDigits cs).2).1 with
      | none => exact hne ⟨hw, by simp [hc]⟩
      | some ds => simp [hc] at hf
    split at h <;>
      · simp only [Option.some.injEq, Prod.mk.injEq] at h
        obtain ⟨rfl, rfl⟩ := h
        exact key _

/-- What follows a scanned numeral is shorter than the text. -/
theorem length_lt_of_scan {cs left : List Char} {n : Numeral}
    (h : scan cs = some (n, left)) : left.length < cs.length := by
  have hlen := congrArg List.length (text_append_of_scan h)
  have hpos := List.length_pos_iff.2 (text_ne_nil_of_scan h)
  rw [List.length_append] at hlen
  omega

end Numeral

end Spreadsheet
