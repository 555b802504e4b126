import Spreadsheet.Number.Shortest

/-!
# Numbers as text

A number is written positionally, never with an exponent. `plain` writes the shortest decimal
that reads back and keeps the sign of zero. `display` is the text of a result: both zeros are
`0`, a whole number is written with its exact digits, anything else as in `plain`.
-/

namespace Spreadsheet

/-- A decimal with digits on both sides of a point when it has a fraction, and without a point
when it has none. -/
def Decimal.positional (d : Decimal) : List Char :=
  if d.exponent < 0 then
    let places := d.exponent.natAbs
    let digits := Nat.toDigits 10 d.significand
    let padded := List.replicate (places + 1 - digits.length) '0' ++ digits
    let point := padded.length - places
    padded.take point ++ '.' :: padded.drop point
  else Nat.toDigits 10 d.significand ++ List.replicate d.exponent.natAbs '0'

namespace Number

open Binary64 (code isNegative units unitsPerOne isWhole)

/-- A text with a minus sign in front if the number's sign bit is set. -/
def signed (x : Float) (magnitude : List Char) : List Char :=
  if isNegative x then '-' :: magnitude else magnitude

/-- The text of an infinity or of not a number. -/
def nonfinite (x : Float) : List Char :=
  if x.isNaN then ['N', 'a', 'N'] else signed x ['i', 'n', 'f']

/-- The shortest positional decimal that reads back as the number. -/
def plain (x : Float) : List Char :=
  if !x.isFinite then nonfinite x
  else if code x = 0 then signed x ['0']
  else signed x (Decimal.shortest (code x)).positional

/-- The text of a number as a result. -/
def display (x : Float) : List Char :=
  if !x.isFinite then nonfinite x
  else if code x = 0 then ['0']
  else if isWhole x then signed x (Nat.toDigits 10 (units (code x) / unitsPerOne))
  else plain x

end Number

end Spreadsheet
