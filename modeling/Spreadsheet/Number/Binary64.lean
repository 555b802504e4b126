/-!
# Binary64 numbers in exact arithmetic

A binary64 number is a sign and a magnitude. The magnitude's code is its bit pattern without
the sign bit: codes order the magnitudes, and the code after the largest finite one is
infinity. Every finite magnitude is a whole number of units of `2 ^ -1074`, so rounding,
truncation and the distance between neighbours are questions about natural numbers.
-/

namespace Spreadsheet.Binary64

/-- The code of infinity, one past the largest finite magnitude. -/
def infinityCode : Nat := 2047 <<< 52

/-- How many units of `2 ^ -1074` make one. -/
def unitsPerOne : Nat := 1 <<< 1074

/-- The bit pattern of a number without its sign bit. -/
def code (x : Float) : Nat := x.toBits.toNat % 1 <<< 63

/-- Whether the sign bit is set; it is on negative zero. -/
def isNegative (x : Float) : Bool := 1 <<< 63 ≤ x.toBits.toNat

/-- The number with a sign and a magnitude code. -/
def ofCode (negative : Bool) (code : Nat) : Float :=
  Float.ofBits (UInt64.ofNat (if negative then 1 <<< 63 + code else code))

/-- The magnitude with a code, in units of `2 ^ -1074`. The codes below `2 ^ 53` count units
one by one; from there on the step doubles every `2 ^ 52` codes. -/
def units (code : Nat) : Nat :=
  if code < 1 <<< 52 then code else (1 <<< 52 + code % 1 <<< 52) <<< (code >>> 52 - 1)

/-- A quotient rounded to the nearest whole number, a half to the even neighbour. -/
def roundDiv (num den : Nat) : Nat :=
  let q := num / den
  let r := num % den
  if 2 * r < den then q else if den < 2 * r then q + 1 else q + q % 2

/-- The code of the magnitude nearest to `num / den`, a tie going to the even code.
A result of `infinityCode` says that the quotient is too large for every finite magnitude. -/
def nearestCode (num den : Nat) : Nat :=
  let scaled := num * unitsPerOne
  let shift := (scaled / den).log2 - 52
  min (shift <<< 52 + roundDiv scaled (den <<< shift)) infinityCode

/-- The number nearest to `num / den` with the given sign, ties going to even. -/
def nearest (negative : Bool) (num den : Nat) : Float :=
  ofCode negative (nearestCode num den)

/-- The number nearest to a whole number; zero is positive. -/
def ofInt (n : Int) : Float := nearest (n < 0) n.natAbs 1

/-- The whole part of a number, the fraction dropped. Not a number has none and gives zero; an
infinity gives a whole number beyond those of all finite numbers. -/
def truncate (x : Float) : Int :=
  if x.isNaN then 0
  else
    let magnitude := units (code x) / unitsPerOne
    if isNegative x then -(magnitude : Int) else magnitude

/-- Whether a finite number has no fraction. -/
def isWhole (x : Float) : Bool := units (code x) % unitsPerOne == 0

/-- Rounding moves a quotient by at most one half. -/
theorem roundDiv_near {num den : Nat} (h : 0 < den) :
    2 * (roundDiv num den * den) ≤ 2 * num + den ∧
      2 * num ≤ 2 * (roundDiv num den * den) + den := by
  have hsplit : den * (num / den) + num % den = num := Nat.div_add_mod num den
  have hlt := Nat.mod_lt num h
  have hcomm : den * (num / den) = num / den * den := Nat.mul_comm ..
  simp only [roundDiv]
  split
  · omega
  · split
    · rw [Nat.add_mul]; omega
    · rcases Nat.mod_two_eq_zero_or_one (num / den) with he | he <;>
        rw [he, Nat.add_mul] <;> omega

/-- The nearest code is never past infinity's. -/
theorem nearestCode_le (num den : Nat) : nearestCode num den ≤ infinityCode := Nat.min_le_right ..

end Spreadsheet.Binary64
