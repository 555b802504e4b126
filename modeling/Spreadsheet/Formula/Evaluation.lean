import Spreadsheet.Address
import Spreadsheet.Content
import Spreadsheet.Formula.Arithmetic
import Spreadsheet.Formula.Expr.Parser
import Spreadsheet.Formula.Shape
import Spreadsheet.Formula.Token.Scan

/-!
# Evaluating a formula

A formula's text is checked for its shape, split into tokens and built into a tree; text that
fails on the way evaluates to an error. The tree is evaluated from left to right, and the first
error ends it: operands further right are then not looked at. Cells are read through an action
of the caller's, so that the same evaluation serves a fixed assignment of values to cells and
one that works values out when they are asked for.
-/

namespace Spreadsheet.Formula

/-- The tree of a formula's body, the text after its `=`. -/
def parse (body : List Char) : Except Fault Expr := do Expr.ofTokens (← Token.scan body)

/-- The value of a tree, its cells read from left to right. A name out of bounds is a missing
cell. -/
def Expr.evaluate {m : Type → Type} [Monad m] (read : Address → m Value) : Expr → m Value
  | .number value => pure (.number value)
  | .cell name => match Address.parse? name with
    | some a => read a
    | none => pure (.error .missing)
  | .call f argument => return f.apply (← argument.evaluate read)
  | .binary op left right => do
    match ← left.evaluate read with
    | .error code => pure (.error code)
    | a => match ← right.evaluate read with
      | .error code => pure (.error code)
      | b => pure (op.apply a b)

/-- The tree of a raw text, if the text is a formula without a mistake in its shape that can
be read. -/
def tree? (text : String) : Option Expr :=
  match text.toList with
  | '=' :: body => if (Shape.fault? text).isNone then (parse body).toOption else none
  | _ => none

/-- The value of a raw text as a formula; text without a tree is an error. -/
def evaluate {m : Type → Type} [Monad m] (read : Address → m Value) (text : String) : m Value :=
  match tree? text with
  | some e => e.evaluate read
  | none => pure (.error .invalid)

end Spreadsheet.Formula
