import Spreadsheet.Formula.Expr
import Spreadsheet.Formula.Fault

/-!
# Building a tree from tokens

One pass over the tokens keeps, for every open parenthesis, the operands that still wait for
their right side. There is at most one per tier of operators: a product waits inside a sum and
a sum inside a comparison, and a second comparison in the same parentheses is a fault. Each
token either extends this state or is refused at once, so a fault names the first token after
which nothing could be saved.
-/

namespace Spreadsheet.Formula

/-- The operands of one parenthesis that wait for their right side, one per tier at most. -/
structure Level where
  /-- The left side of a comparison. -/
  comparison : Option (Expr × Comparison)
  /-- The left side of a sum. -/
  sum : Option (Expr × SumOp)
  /-- The left side of a product. -/
  product : Option (Expr × ProductOp)
  deriving DecidableEq

namespace Level

/-- Nothing waits. -/
def empty : Level := ⟨none, none, none⟩

/-- An operand with the product it completes. -/
def closeProduct (level : Level) (e : Expr) : Expr :=
  match level.product with
  | none => e
  | some (left, op) => .binary (.product op) left e

/-- An operand with the product and the sum it completes. -/
def closeSum (level : Level) (e : Expr) : Expr :=
  match level.sum with
  | none => level.closeProduct e
  | some (left, op) => .binary (.sum op) left (level.closeProduct e)

/-- An operand with everything it completes between its parentheses. -/
def close (level : Level) (e : Expr) : Expr :=
  match level.comparison with
  | none => level.closeSum e
  | some (left, op) => .binary (.comparison op) left (level.closeSum e)

/-- An operator after an operand: what binds at least as tightly is complete, and the result
waits as the operator's left side. -/
def push (level : Level) (e : Expr) : Operator → Except Fault Level
  | .product op => .ok { level with product := some (level.closeProduct e, op) }
  | .sum op => .ok { level with sum := some (level.closeSum e, op), product := none }
  | .comparison op =>
    match level.comparison with
    | none => .ok ⟨some (level.closeSum e, op), none, none⟩
    | some _ => .error .chainedComparison

end Level

/-- A parenthesis that is open: the function it belongs to, if any, and the level around it. -/
structure Opening where
  /-- The function whose argument the parenthesis holds. -/
  unary : Option Unary
  /-- The operands that wait outside. -/
  around : Level
  deriving DecidableEq

/-- The operand that a closed parenthesis is. -/
def Opening.wrap (o : Opening) (e : Expr) : Expr :=
  match o.unary with
  | none => e
  | some f => .call f e

/-- What the tokens read so far amount to. The openings are listed from the inside out. -/
inductive Reading where
  /-- An operand must follow. -/
  | operand (level : Level) (openings : List Opening)
  /-- A function name was read; its parenthesis must follow. -/
  | function (f : Unary) (level : Level) (openings : List Opening)
  /-- An operand was read; an operator or a right parenthesis may follow. -/
  | operator (e : Expr) (level : Level) (openings : List Opening)
  deriving DecidableEq

namespace Reading

/-- Nothing is read yet. -/
def start : Reading := .operand .empty []

/-- The reading after one more token. -/
def next : Reading → Token → Except Fault Reading
  | .operand level openings, .number value => .ok (.operator (.number value) level openings)
  | .operand level openings, .cell name => .ok (.operator (.cell name) level openings)
  | .operand level openings, .unary f => .ok (.function f level openings)
  | .operand level openings, .leftParen => .ok (.operand .empty (⟨none, level⟩ :: openings))
  | .function f level openings, .leftParen => .ok (.operand .empty (⟨some f, level⟩ :: openings))
  | .operator e level openings, .operator op =>
    (level.push e op).map fun waiting => .operand waiting openings
  | .operator e level (o :: openings), .rightParen =>
    .ok (.operator (o.wrap (level.close e)) o.around openings)
  | _, token => .error (.unexpectedToken token)

/-- The tree, if the tokens read so far are a whole formula. -/
def finish : Reading → Except Fault Expr
  | .operator e level [] => .ok (level.close e)
  | _ => .error .unexpectedEnd

end Reading

/-- The tree of a token sequence. -/
def Expr.ofTokens (tokens : List Token) : Except Fault Expr := do
  (← tokens.foldlM Reading.next .start).finish

end Spreadsheet.Formula
