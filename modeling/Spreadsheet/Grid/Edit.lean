import Spreadsheet.Grid

/-!
# Editing a grid

Texts are written into cells that exist; lines are added and removed at the end of the grid.
Whatever an edit touches becomes pending. An edit that fails changes nothing. Extents are words,
and a line that is added at the top of their range overflows: that is no failure of an edit, for
no grid is left to go on with.
-/

namespace Spreadsheet.Grid

/-- Write a raw text into a cell. What the cell shows stays until it is recalculated. -/
def setText (g : Grid) (a : Address) (text : String) : Except GridError Grid :=
  match g.cell? a with
  | none => .error (.unknownCell a)
  | some cell =>
    .ok { g with cells := g.cells.insert a { cell with text }, pending := g.pending.insert a }

/-- Write a raw text into the cell with a name. -/
def set (g : Grid) (name text : String) : Except GridError Grid :=
  match Address.parse? name with
  | none => .error (.invalidName name)
  | some a => g.setText a text

/-- The grid with another number of lines in a direction. -/
def withExtent (g : Grid) (d : Dimension) (extent : Nat) : Grid :=
  match d with
  | .row => { g with rows := extent }
  | .column => { g with columns := extent }

/-- The grid with another line of blank cells at the end. -/
def extend (g : Grid) (d : Dimension) : Grid :=
  let added := d.line (g.extent d) (g.extent d.cross)
  { g with
    cells := added.foldl (fun cells a => cells.insert a Cell.blank) g.cells
    pending := g.pending.insertMany added }.withExtent d (g.extent d + 1)

/-- Add a line of blank cells at the end, unless its extent overflows. -/
def addLine (g : Grid) (d : Dimension) : Except Overflow Grid :=
  if g.extent d + 1 < extentBound then .ok (g.extend d) else .error ⟨d⟩

/-- Remove the last line. -/
def removeLine (g : Grid) (d : Dimension) : Except GridError Grid :=
  match g.extent d with
  | 0 => .error (.emptyDimension d)
  | last + 1 =>
    let removed := g.addresses.filter fun a => d.coordinate a = last
    .ok ({ g with
      cells := g.cells.filter fun a _ => d.coordinate a ≠ last
      pending := g.pending.insertMany removed }.withExtent d last)

/-- The grid with several more lines at the end. -/
def extendBy (g : Grid) (d : Dimension) (count : Nat) : Grid :=
  count.repeat (fun g => g.extend d) g

/-- The extent that just reaches a coordinate, at most the largest word. -/
def extentFor (coordinate : Nat) : Nat := min (coordinate + 1) (extentBound - 1)

/-- Add columns, then rows, until a cell is allocated, unless the grid would be too large. No line
on the way overflows, as the extents that are checked are reached in the end. -/
def growToFit (g : Grid) (a : Address) : Except GridError Grid := do
  checkSize (max g.rows (extentFor a.row)) (max g.columns (extentFor a.column))
  let wide := g.extendBy .column (a.column + 1 - g.columns)
  return wide.extendBy .row (a.row + 1 - wide.rows)

/-- The pending cells, and the grid with none pending. -/
def takePending (g : Grid) : AddressSet × Grid := (g.pending, { g with pending := ∅ })

end Spreadsheet.Grid
