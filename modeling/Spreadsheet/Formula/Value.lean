import Spreadsheet.Number.Display

/-!
# Values

Evaluating a formula gives a number, a truth value, or the code of what went wrong.
-/

namespace Spreadsheet

/-- What can go wrong in an evaluation. -/
inductive ErrorCode where
  /-- A malformed formula, or an operand that an operator cannot take. -/
  | invalid
  /-- A reference to a cell that is not there. -/
  | missing
  /-- A cell that depends on itself. -/
  | circular
  deriving DecidableEq, Repr

/-- The tag shown in place of a value. -/
def ErrorCode.tag : ErrorCode → String
  | .invalid => "#ERROR"
  | .missing => "#REF"
  | .circular => "#CYCLE"

/-- The sentence that explains a tag. -/
def ErrorCode.description : ErrorCode → String
  | .invalid => "invalid formula or operand"
  | .missing => "reference to a missing cell"
  | .circular => "circular reference"

/-- The result of an evaluation. -/
inductive Value where
  | number (x : Float)
  | boolean (b : Bool)
  | error (code : ErrorCode)
  deriving DecidableEq

namespace Value

/-- Whether a value is no error. -/
def isOk : Value → Bool
  | .error _ => false
  | _ => true

/-- A value as a cell shows it. -/
def display : Value → String
  | .number x => String.ofList (Number.display x)
  | .boolean true => "TRUE"
  | .boolean false => "FALSE"
  | .error code => code.tag

end Value

end Spreadsheet
