import Spreadsheet.Text.Blank
import Spreadsheet.Number.Numeral

/-!
# What a cell's text holds

A cell's raw text alone decides what the cell is: blank text is an empty cell, text that
starts with `=` is a formula, anything else is a literal and is shown as it stands. A literal
may write a number; an empty cell counts as zero.
-/

namespace Spreadsheet

/-- The kinds of raw text. -/
inductive Content where
  /-- Blank text. -/
  | empty
  /-- Text shown as it stands. -/
  | literal (text : String)
  /-- A formula, its leading `=` included. -/
  | formula (text : String)
  deriving DecidableEq, Repr

namespace Content

/-- The kind of a raw text. -/
def ofText (text : String) : Content :=
  if Text.allBlank text.toList then .empty
  else if text.toList.head? = some '=' then .formula text
  else .literal text

/-- Whether the content is a formula. -/
def isFormula : Content → Bool
  | .formula _ => true
  | _ => false

/-- The text that the content keeps. -/
def text? : Content → Option String
  | .empty => none
  | .literal text => some text
  | .formula text => some text

/-- The number that arithmetic sees: zero for an empty cell, the finite number that a literal
writes between blanks, none for other literals and for formulas. -/
def number? : Content → Option Float
  | .empty => some 0
  | .literal text => Numeral.read? (Text.trim text.toList)
  | .formula _ => none

/-- Content that keeps a text keeps it whole. -/
theorem text?_ofText {text kept : String} (h : (ofText text).text? = some kept) : kept = text := by
  unfold ofText at h
  split at h
  · simp [text?] at h
  · split at h <;> simpa [text?] using h.symm

/-- A text is a formula exactly when it starts with `=`. -/
theorem isFormula_ofText (text : String) :
    (ofText text).isFormula = true ↔ text.toList.head? = some '=' := by
  unfold ofText
  split
  · rename_i h
    constructor
    · simp [isFormula]
    · intro he
      obtain ⟨rest, hr⟩ : ∃ rest, text.toList = '=' :: rest := by
        cases hc : text.toList with
        | nil => simp [hc] at he
        | cons c rest => exact ⟨rest, by simp_all⟩
      rw [hr] at h
      have : Text.isBlank '=' = false := by decide
      simp [Text.allBlank, this] at h
  · split <;> simp_all [isFormula]

end Content

end Spreadsheet
