import Spreadsheet.Formula.Operator
import Spreadsheet.Formula.Value

/-!
# Operators on values

Arithmetic takes numbers, and a result that is not finite is an error. Comparisons take two
numbers or two truth values, which count as one and zero; equality allows for a tolerance.
Division refuses a divisor within the tolerance of zero. Quotient and remainder work on the
whole parts of their operands, clamped to sixty-four bits.
-/

namespace Spreadsheet.Formula

/-- How far apart equal numbers may be, and how near zero a divisor may not be. -/
def tolerance : Float := 1e-4

/-- A whole number clamped to sixty-four bits with a sign. -/
def clampWord (n : Int) : Int := max Int64.minValue.toInt (min n Int64.maxValue.toInt)

/-- The whole part of a number, clamped. -/
def wholePart (x : Float) : Int := clampWord (Binary64.truncate x)

/-- A whole number as a result, unless it leaves sixty-four bits. -/
def ofWord? (n : Int) : Option Float := if clampWord n = n then some (Binary64.ofInt n) else none

namespace SumOp

/-- The sum or difference of two numbers. -/
def apply : SumOp → Float → Float → Float
  | .add, a, b => a + b
  | .subtract, a, b => a - b

end SumOp

namespace ProductOp

/-- The product, quotient or remainder of two numbers, where there is one. The remainder has
the sign of the dividend, and there is none where the quotient leaves sixty-four bits. -/
def result? : ProductOp → Float → Float → Option Float
  | .multiply, a, b => some (a * b)
  | .divide, a, b => if b.abs < tolerance then none else some (a / b)
  | .quotient, a, b =>
    if b.abs < tolerance ∨ wholePart b = 0 then none
    else ofWord? ((wholePart a).tdiv (wholePart b))
  | .remainder, a, b =>
    if wholePart b = 0 then none
    else (ofWord? ((wholePart a).tdiv (wholePart b))).bind fun _ =>
      ofWord? ((wholePart a).tmod (wholePart b))

end ProductOp

/-- Whether a comparison holds of two numbers. -/
def Comparison.holds : Comparison → Float → Float → Bool
  | .equal, a, b => (a - b).abs < tolerance
  | .notEqual, a, b => tolerance < (a - b).abs
  | .less, a, b => a < b
  | .lessEqual, a, b => a ≤ b
  | .greater, a, b => b < a
  | .greaterEqual, a, b => b ≤ a

/-- The value of a finite number; anything else is an error. -/
def finite : Option Float → Value
  | some x => if x.isFinite then .number x else .error .invalid
  | none => .error .invalid

/-- A truth value as a number for comparisons. -/
def truthNumber (b : Bool) : Float := if b then 1 else 0

namespace Operator

/-- The value of an operator between two values that are no errors; an operand of the wrong
kind is an error. -/
def apply : Operator → Value → Value → Value
  | .comparison op, .number a, .number b => .boolean (op.holds a b)
  | .comparison op, .boolean a, .boolean b =>
    .boolean (op.holds (truthNumber a) (truthNumber b))
  | .sum op, .number a, .number b => finite (some (op.apply a b))
  | .product op, .number a, .number b => finite (op.result? a b)
  | _, _, _ => .error .invalid

end Operator

/-- The value of a function; an error passes through, and a truth value is an error. -/
def Unary.apply : Unary → Value → Value
  | .increment, .number x => .number (x + 1)
  | .decrement, .number x => .number (x - 1)
  | _, .error code => .error code
  | _, .boolean _ => .error .invalid

end Spreadsheet.Formula
