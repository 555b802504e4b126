import Spreadsheet.Text.Blank

/-!
# The shape of a formula's text

Before a cell is evaluated its raw text is checked for the mistakes that can be seen without
reading it as a formula: nothing to evaluate, double spaces, parentheses that do not match, and
arithmetic signs that meet or stand at an end. A literal always passes. Of several mistakes the
first in the order of `ShapeFault`'s constructors is reported.
-/

namespace Spreadsheet.Formula

/-- A mistake in the shape of a cell's text. -/
inductive ShapeFault where
  /-- The text is blank. -/
  | empty
  /-- Nothing but blanks follows the `=`. -/
  | emptyFormula
  /-- Two spaces stand next to each other. -/
  | doubleSpace
  /-- The parentheses do not match. -/
  | unbalancedParentheses
  /-- Two arithmetic signs that may not meet. -/
  | illegalPair (first second : Char)
  /-- The formula starts with an arithmetic sign other than a minus. -/
  | leadingOperator (sign : Char)
  /-- The formula ends with an arithmetic sign. -/
  | trailingOperator (sign : Char)
  deriving DecidableEq, Repr

/-- The message for a mistake in shape. -/
def ShapeFault.message : ShapeFault → String
  | .empty => "empty expression"
  | .emptyFormula => "empty expression after '='"
  | .doubleSpace => "double spaces are not allowed"
  | .unbalancedParentheses => "unbalanced parentheses"
  | .illegalPair first second =>
    "illegal operator sequence '" ++ String.ofList [first, second] ++ "'"
  | .leadingOperator sign => "expression cannot start with '" ++ String.singleton sign ++ "'"
  | .trailingOperator sign => "expression cannot end with '" ++ String.singleton sign ++ "'"

namespace Shape

/-- The arithmetic signs. -/
def signs : List Char := ['+', '-', '*', '/']

/-- The pairs of signs that may not meet, in the order in which they are looked for. -/
def illegalPairs : List (Char × Char) :=
  [('+', '+'), ('+', '-'), ('+', '*'), ('+', '/'), ('-', '-'), ('-', '*'), ('-', '/'),
   ('*', '*'), ('*', '/'), ('/', '/')]

/-- Whether two characters stand next to each other, in this order, somewhere in a text. -/
def adjacent (first second : Char) : List Char → Bool
  | a :: b :: rest => (a == first && b == second) || adjacent first second (b :: rest)
  | _ => false

/-- Whether a text closes exactly the given number of open parentheses and those it opens. -/
def balanced : Nat → List Char → Bool
  | depth, [] => depth == 0
  | depth, '(' :: rest => balanced (depth + 1) rest
  | 0, ')' :: _ => false
  | depth + 1, ')' :: rest => balanced depth rest
  | depth, _ :: rest => balanced depth rest

/-- The first mistake in the arithmetic signs of a trimmed body. -/
def signFault? (body : List Char) : Option ShapeFault :=
  match illegalPairs.find? fun (a, b) => adjacent a b body with
  | some (a, b) => some (.illegalPair a b)
  | none =>
    match body.head?, body.getLast? with
    | some first, some last =>
      if first ∈ signs ∧ first ≠ '-' then some (.leadingOperator first)
      else if last ∈ signs then some (.trailingOperator last)
      else none
    | _, _ => none

/-- The first mistake in a trimmed body. -/
def bodyFault? (body : List Char) : Option ShapeFault :=
  if body = [] then some .emptyFormula
  else if adjacent ' ' ' ' body then some .doubleSpace
  else if !balanced 0 body then some .unbalancedParentheses
  else signFault? body

/-- The first mistake in the shape of a cell's raw text. -/
def fault? (text : String) : Option ShapeFault :=
  if Text.allBlank text.toList then some .empty
  else match text.toList with
    | '=' :: body => bodyFault? (Text.trim body)
    | _ => none

end Shape

end Spreadsheet.Formula
