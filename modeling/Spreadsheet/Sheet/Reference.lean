import Spreadsheet.Sheet

/-!
# The cells that a formula mentions

References are found in the text alone, whether or not the formula can be read: every longest
run of capital letters with digits after it that is the name of a cell. Each cell is listed
once, where it is first mentioned.
-/

namespace Spreadsheet

namespace Formula

/-- The runs of capital letters with digits after them in a text, from left to right. -/
def cellNames : List Char → List String
  | [] => []
  | c :: rest =>
    if c.isUpper then
      let letters := rest.takeWhile Char.isUpper
      let after := rest.dropWhile Char.isUpper
      let digits := after.takeWhile Char.isDigit
      let others := cellNames (after.dropWhile Char.isDigit)
      if digits = [] then others else String.ofList (c :: letters ++ digits) :: others
    else cellNames rest
termination_by text => text.length
decreasing_by
  · have h₁ := (List.dropWhile_sublist Char.isDigit (l := rest.dropWhile Char.isUpper)).length_le
    have h₂ := (List.dropWhile_sublist Char.isUpper (l := rest)).length_le
    simp only [List.length_cons]
    omega
  · simp

/-- The cells that a raw text mentions, if it is a formula. -/
def references (text : String) : List Address :=
  if (Content.ofText text).isFormula then
    ((cellNames text.toList).filterMap Address.parse?).eraseDups
  else []

end Formula

/-- The cells that the text of a cell mentions. -/
def Sheet.references (s : Sheet) (a : Address) : List Address :=
  match s.text? a with
  | some text => Formula.references text
  | none => []

end Spreadsheet
