import Spreadsheet.Number.Binary64

/-!
# The shortest decimal of a binary64 magnitude

The decimals that round to a magnitude fill an interval between the two midpoints to its
neighbours; the midpoints belong to it exactly when the code is even. Among the grids of
multiples of a power of ten, `shortest` takes the coarsest with a point in that interval, and
there the point nearest to the magnitude, the larger of two at the same distance.

Grids are counted from the finest one in use, the multiples of `10 ^ -finest`, so that every
quantity is a whole number of units of `2 ^ -1075 * 10 ^ -finest`.
-/

namespace Spreadsheet

/-- The decimal `significand * 10 ^ exponent`. -/
structure Decimal where
  /-- The digits, read as one whole number. -/
  significand : Nat
  /-- The power of ten that scales them. -/
  exponent : Int
  deriving DecidableEq, Repr

namespace Decimal

open Binary64 (units unitsPerOne)

/-- The finest grid in use is the multiples of `10 ^ -finest`. -/
def finest : Nat := 341

/-- The size of a step of the grid `grid` places above the finest, in the units of this module. -/
def step (grid : Nat) : Nat := Nat.pow 10 grid * (2 * unitsPerOne)

/-- The magnitude with a code, in the units of this module. -/
def position (code : Nat) : Nat := 2 * units code * Nat.pow 10 finest

/-- The midpoint between the magnitude with a code and the one before it. -/
def lower (code : Nat) : Nat := (units (code - 1) + units code) * Nat.pow 10 finest

/-- The midpoint between the magnitude with a code and the one after it. -/
def upper (code : Nat) : Nat := (units code + units (code + 1)) * Nat.pow 10 finest

/-- Whether a point rounds to the magnitude with a code. -/
def roundsTo (code point : Nat) : Bool :=
  if code % 2 = 0 then lower code ≤ point && point ≤ upper code
  else lower code < point && point < upper code

/-- The multiple of a grid's step that rounds to a magnitude and is nearest to it, if there is
one; of two at the same distance, the larger. -/
def candidate (code grid : Nat) : Option Nat :=
  let below := position code / step grid
  let above := below + 1
  match roundsTo code (below * step grid), roundsTo code (above * step grid) with
  | false, false => none
  | true, false => some below
  | false, true => some above
  | true, true =>
    if position code - below * step grid < above * step grid - position code then some below
    else some above

/-- The first candidate on the grids from `grid` downward. -/
def search (code : Nat) : Nat → Decimal
  | 0 => ⟨position code / step 0, -(finest : Int)⟩
  | grid + 1 => match candidate code (grid + 1) with
    | some n => ⟨n, (grid + 1 : Int) - finest⟩
    | none => search code grid

/-- The shortest decimal that rounds to the magnitude with a code. The search starts at the
first power of ten above the magnitude. -/
def shortest (code : Nat) : Decimal :=
  search code (Nat.toDigits 10 (position code / step 0)).length

end Decimal

end Spreadsheet
