import Spreadsheet.Grid.Edit
import Spreadsheet.Sheet.Dependents
import Spreadsheet.Sheet.Evaluator

/-!
# Recalculation

What a cell shows follows from the raw texts of the grid: blank cells show nothing and literals
themselves; a formula is checked for its shape, then for a circular reference, then evaluated.
A pass works out its target cells one after another over the same texts and shares the values
that are settled on the way. Full passes take every cell as a target; incremental ones take the
cells that changed and all that depend on them.
-/

namespace Spreadsheet

/-- What a cell is to show. -/
structure Shown where
  /-- The display text. -/
  display : String
  /-- The message that goes with an error tag. -/
  message : Option String
  deriving DecidableEq, Repr

namespace Shown

/-- A text without a message. -/
def clean (display : String) : Shown := ⟨display, none⟩

/-- The tag of an error with a message. -/
def failed (code : ErrorCode) (message : String) : Shown := ⟨code.tag, some message⟩

/-- A value, an error with its description. -/
def ofValue : Value → Shown
  | .error code => failed code code.description
  | value => clean value.display

end Shown

/-- What a cell of a sheet is to show, if the cell is there. -/
def Sheet.shown? (s : Sheet) (a : Address) : StateM Memo (Option Shown) :=
  match s.text? a with
  | none => return none
  | some text =>
    match Content.ofText text with
    | .empty => return some (.clean "")
    | .literal text => return some (.clean text)
    | .formula text =>
      match Formula.Shape.fault? text with
      | some fault => return some (.failed .invalid fault.message)
      | none =>
        if s.hasCycle a then return some (.failed .circular ErrorCode.circular.description)
        else return some (.ofValue (← s.cellValue a))

namespace Grid

/-- The cells with what one of them is to show. -/
def display (cells : Std.ExtTreeMap Address Cell) (a : Address) (shown : Option Shown) :
    Std.ExtTreeMap Address Cell :=
  match shown with
  | some shown =>
    cells.modify a fun cell => { cell with display := shown.display, message := shown.message }
  | none => cells

/-- One pass over some target cells; those that are not in the grid are passed over. -/
def recalculate (g : Grid) (targets : List Address) : Grid :=
  let s := g.sheet
  let (cells, _) := targets.foldl (fun (cells, memo) a =>
    let (shown, memo) := s.shown? a memo
    (display cells a shown, memo)) (g.cells, (∅ : Memo))
  { g with cells }

/-- Recalculate one cell. -/
def recalculateCell (g : Grid) (a : Address) : Grid := g.recalculate [a]

/-- Recalculate every cell; nothing is pending afterwards. -/
def recalculateAll (g : Grid) : Grid := { g.recalculate g.addresses with pending := ∅ }

/-- Recalculate the cells that changed and those that depend on them. -/
def recalculateChanged (g : Grid) (changed : AddressSet) : Grid :=
  g.recalculate (changed ∪ g.sheet.dependents changed).toList

/-- Recalculate what the pending edits affect. -/
def recalculatePending (g : Grid) : Grid :=
  let (changed, g) := g.takePending
  g.recalculateChanged changed

/-- The circular references that a full pass comes upon: for each formula without a mistake in
its shape the way into a circle, if there is one, row by row. -/
def circularReferences (g : Grid) : List (List Address) :=
  let s := g.sheet
  g.addresses.filterMap fun a => match s.text? a with
    | some text =>
      if s.isFormula a && (Formula.Shape.fault? text).isNone then s.findCycle a else none
    | none => none

end Grid

end Spreadsheet
