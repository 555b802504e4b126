import Spreadsheet.Address.Column

/-!
# Cell addresses

An address is the row and the column of a cell, both counted from zero. Its name is the
column's letters followed by the row's number counted from one, as in `AB12`. Addresses are
ordered row by row. A name may write its row with leading zeros, so a cell has many names;
a row or column that does not fit in sixty-four bits has none.
-/

namespace Spreadsheet

/-- The place of a cell in a grid. -/
structure Address where
  /-- The row, counted from zero. -/
  row : Nat
  /-- The column, counted from zero. -/
  column : Nat
  deriving DecidableEq, Repr

namespace Address

/-- Addresses are compared by row, then by column. -/
instance : Ord Address where
  compare := compareLex (compareOn row) (compareOn column)

instance : Std.TransOrd Address :=
  inferInstanceAs (Std.TransCmp (compareLex (compareOn row) (compareOn column)))

instance : Std.LawfulEqOrd Address where
  eq_of_compare {a b} h := by
    obtain ⟨hrow, hcolumn⟩ := compareLex_eq_eq.1 h
    have hr : a.row = b.row := Std.LawfulEqOrd.eq_of_compare hrow
    have hc : a.column = b.column := Std.LawfulEqOrd.eq_of_compare hcolumn
    cases a
    cases b
    simp_all

/-- Row and column numbers counted from one stay below this bound. -/
def bound : Nat := UInt64.size

/-- The column counted from one that letters write, if it is in bounds. -/
def readColumn? (letters : List Char) : Option Nat :=
  let n := Column.ordinal letters
  if 0 < n ∧ n < bound then some n else none

/-- The row counted from one that digits write, if it is in bounds. -/
def readRow? (digits : List Char) : Option Nat :=
  let n := Nat.ofDigitChars 10 digits 0
  if digits ≠ [] ∧ digits.all Char.isDigit ∧ 0 < n ∧ n < bound then some n else none

/-- The address that a name writes: capital letters, then digits, and nothing else. -/
def parse? (name : String) : Option Address :=
  let letters := name.toList.takeWhile Char.isUpper
  let digits := name.toList.dropWhile Char.isUpper
  match readColumn? letters, readRow? digits with
  | some column, some row => some ⟨row - 1, column - 1⟩
  | _, _ => none

/-- The name of an address, without leading zeros. -/
def name (a : Address) : String :=
  String.ofList (Column.letters a.column ++ Nat.toDigits 10 (a.row + 1))

end Address

end Spreadsheet
