import Spreadsheet.Formula.Operator
import Spreadsheet.Number.Display

/-!
# Tokens

A formula is read as a sequence of numbers, cell names, operators, function names and
parentheses. A cell name keeps its letters and digits as written; whether it names a cell is
decided later.
-/

namespace Spreadsheet.Formula

/-- A word of a formula. -/
inductive Token where
  | number (value : Float)
  | cell (name : String)
  | operator (op : Operator)
  | unary (f : Unary)
  | leftParen
  | rightParen
  deriving DecidableEq

namespace Token

/-- A token as a reader would write it, a number by its shortest decimal. -/
def spelling : Token → String
  | .number value => String.ofList (Number.plain value)
  | .cell name => name
  | .operator op => op.spelling
  | .unary f => f.spelling
  | .leftParen => "("
  | .rightParen => ")"

/-- A token in quotation marks, as messages show it. -/
def quoted (t : Token) : String := "'" ++ t.spelling ++ "'"

/-- Whether a minus sign directly after this token can begin a number. -/
def opensOperand : Token → Bool
  | .leftParen => true
  | .operator (.comparison _) => true
  | _ => false

end Token

end Spreadsheet.Formula
