/-!
# Operators

Binary operators come in three tiers: comparisons bind loosest, then sums, then products.
The two unary functions are written as calls.
-/

namespace Spreadsheet.Formula

/-- Addition and subtraction. -/
inductive SumOp where
  | add
  | subtract
  deriving DecidableEq, Repr

/-- Multiplication, division, and the quotient and remainder of whole numbers. -/
inductive ProductOp where
  | multiply
  | divide
  | quotient
  | remainder
  deriving DecidableEq, Repr

/-- The six comparisons. -/
inductive Comparison where
  | equal
  | notEqual
  | less
  | lessEqual
  | greater
  | greaterEqual
  deriving DecidableEq, Repr

/-- A binary operator of one of the three tiers. -/
inductive Operator where
  | comparison (op : Comparison)
  | sum (op : SumOp)
  | product (op : ProductOp)
  deriving DecidableEq, Repr

/-- The functions that add one and take one away. -/
inductive Unary where
  | increment
  | decrement
  deriving DecidableEq, Repr

/-- The sign of a sum. -/
def SumOp.spelling : SumOp → String
  | .add => "+"
  | .subtract => "-"

/-- The sign or word of a product. -/
def ProductOp.spelling : ProductOp → String
  | .multiply => "*"
  | .divide => "/"
  | .quotient => "div"
  | .remainder => "mod"

/-- The sign of a comparison. -/
def Comparison.spelling : Comparison → String
  | .equal => "="
  | .notEqual => "<>"
  | .less => "<"
  | .lessEqual => "<="
  | .greater => ">"
  | .greaterEqual => ">="

/-- The sign or word of an operator. -/
def Operator.spelling : Operator → String
  | .comparison op => op.spelling
  | .sum op => op.spelling
  | .product op => op.spelling

/-- The name of a function. -/
def Unary.spelling : Unary → String
  | .increment => "inc"
  | .decrement => "dec"

end Spreadsheet.Formula
