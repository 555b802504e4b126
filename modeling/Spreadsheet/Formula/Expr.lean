import Spreadsheet.Formula.Operator

/-!
# Expression trees

A formula's tree has numbers and cell names at its leaves and operators and function calls
inside. Parentheses only shape the tree and leave nothing in it.
-/

namespace Spreadsheet.Formula

/-- The tree of a formula. -/
inductive Expr where
  /-- A number. -/
  | number (value : Float)
  /-- A cell by its name as written. -/
  | cell (name : String)
  /-- A function applied to an argument. -/
  | call (f : Unary) (argument : Expr)
  /-- An operator between two operands. -/
  | binary (op : Operator) (left right : Expr)
  deriving DecidableEq

/-- The cell names in a tree, from left to right, with repetitions. -/
def Expr.names : Expr → List String
  | .number _ => []
  | .cell name => [name]
  | .call _ argument => argument.names
  | .binary _ left right => left.names ++ right.names

end Spreadsheet.Formula
