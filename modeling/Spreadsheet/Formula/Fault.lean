import Spreadsheet.Formula.Token

/-!
# Why a formula cannot be read

The first five faults are met while splitting the text into tokens, the last three while
building the tree from the tokens.
-/

namespace Spreadsheet.Formula

/-- Why a formula cannot be read. -/
inductive Fault where
  /-- A character that begins no token, with its offset in bytes of UTF-8. -/
  | unexpectedChar (offset : Nat) (found : Char)
  /-- A word that is no cell name, operator or function. -/
  | unknownWord (word : String)
  /-- A word operator without white space directly in front of it. -/
  | unspacedOperator (op : ProductOp)
  /-- A function name without a parenthesis directly after it. -/
  | detachedFunction (f : Unary)
  /-- A numeral whose value is not finite. -/
  | invalidNumber (text : String)
  /-- A token that cannot stand where it stands. -/
  | unexpectedToken (token : Token)
  /-- The formula stops where more must follow. -/
  | unexpectedEnd
  /-- A second comparison between the same parentheses. -/
  | chainedComparison
  deriving DecidableEq

/-- The message for a fault. -/
def Fault.message : Fault → String
  | .unexpectedChar offset found =>
    "unexpected character '" ++ String.singleton found ++ "' at offset " ++ toString offset
  | .unknownWord word => "unknown word '" ++ word ++ "'"
  | .unspacedOperator op => "'" ++ op.spelling ++ "' must be preceded by a space"
  | .detachedFunction f => "'" ++ f.spelling ++ "' must be followed directly by '('"
  | .invalidNumber text => "invalid number '" ++ text ++ "'"
  | .unexpectedToken token => "unexpected token " ++ token.quoted
  | .unexpectedEnd => "unexpected end of formula"
  | .chainedComparison => "only one comparison is allowed per expression"

end Spreadsheet.Formula
