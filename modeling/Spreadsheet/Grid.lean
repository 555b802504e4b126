import Spreadsheet.Sheet

/-!
# Grids

A grid is a rectangle of cells. A cell keeps the raw text it was given and what it shows: a
display text, and a message when the display is an error tag. The grid also records the cells
whose edits no recalculation has taken up yet. A grid is built empty or from rows of raw texts,
and it may not hold more than `Grid.capacity` cells when it is built.
-/

namespace Spreadsheet

/-- A cell of a grid. -/
structure Cell where
  /-- The raw text, from which everything else about the cell follows. -/
  text : String
  /-- What the cell shows as of its last recalculation. -/
  display : String
  /-- The message that goes with an error tag. -/
  message : Option String
  deriving DecidableEq, Repr

/-- A cell that shows nothing yet. -/
def Cell.ofText (text : String) : Cell := ⟨text, "", none⟩

/-- The cell that is allocated where nothing was. -/
def Cell.blank : Cell := .ofText ""

/-- The two directions in which a grid extends. -/
inductive Dimension where
  | row
  | column
  deriving DecidableEq, Repr

namespace Dimension

/-- The name of a direction. -/
def name : Dimension → String
  | .row => "row"
  | .column => "column"

/-- The direction across. -/
def cross : Dimension → Dimension
  | .row => .column
  | .column => .row

/-- The coordinate of an address in a direction. -/
def coordinate : Dimension → Address → Nat
  | .row, a => a.row
  | .column, a => a.column

/-- The first `length` addresses of a line, which has a fixed coordinate in a direction. -/
def line (d : Dimension) (coordinate length : Nat) : List Address :=
  (List.range length).map fun i => match d with
    | .row => ⟨coordinate, i⟩
    | .column => ⟨i, coordinate⟩

end Dimension

/-- Why an operation on a grid fails. -/
inductive GridError where
  /-- The grid would hold too many cells. -/
  | tooLarge (rows columns : Nat)
  /-- A text that is not the name of a cell. -/
  | invalidName (name : String)
  /-- A cell that is not in the grid. -/
  | unknownCell (a : Address)
  /-- There is no line left to remove. -/
  | emptyDimension (d : Dimension)
  deriving DecidableEq, Repr

/-- A rectangle of cells. -/
structure Grid where
  /-- The cells that are allocated. -/
  cells : Std.ExtTreeMap Address Cell
  /-- The number of rows. -/
  rows : Nat
  /-- The number of columns. -/
  columns : Nat
  /-- The cells that were edited, allocated or removed since the last recalculation. -/
  pending : AddressSet

namespace Grid

/-- The most cells that a grid is built with or grown to. -/
def capacity : Nat := 1 <<< 20

/-- Extents are words of sixty-four bits: they stay below this number. -/
def extentBound : Nat := UInt64.size

/-- An extent that is raised beyond the range of a word. It leaves no grid behind. -/
structure Overflow where
  /-- The direction in which the grid was to be extended. -/
  direction : Dimension
  deriving DecidableEq, Repr

end Grid

/-- The message for a failed operation. -/
def GridError.message : GridError → String
  | .tooLarge rows columns =>
    "Grid of " ++ toString rows ++ " x " ++ toString columns ++
      " cells exceeds the limit of " ++ toString Grid.capacity ++ " cells"
  | .invalidName name => "Invalid cell name: " ++ name
  | .unknownCell a => "Unknown cell: " ++ a.name
  | .emptyDimension d => "No " ++ d.name ++ " left to remove"

namespace Grid

/-- The number of lines in a direction. -/
def extent (g : Grid) : Dimension → Nat
  | .row => g.rows
  | .column => g.columns

/-- The cell at an address. -/
def cell? (g : Grid) (a : Address) : Option Cell := g.cells[a]?

/-- Whether a cell is allocated. -/
def contains (g : Grid) (a : Address) : Bool := g.cells.contains a

/-- The raw text of a cell. -/
def text? (g : Grid) (a : Address) : Option String := (g.cell? a).map Cell.text

/-- The allocated cells, row by row. -/
def addresses (g : Grid) : List Address := g.cells.keys

/-- The number of allocated cells. -/
def size (g : Grid) : Nat := g.cells.size

/-- The raw texts as a sheet. -/
def sheet (g : Grid) : Sheet := ⟨g.cells.map fun _ cell => cell.text⟩

/-- Refuses a rectangle with too many cells. -/
def checkSize (rows columns : Nat) : Except GridError Unit :=
  if rows * columns ≤ capacity then .ok () else .error (.tooLarge rows columns)

/-- The addresses of a rectangle, row by row. -/
def rectangle (rows columns : Nat) : List Address :=
  (List.range (rows * columns)).map fun i => ⟨i / columns, i % columns⟩

/-- A grid of blank cells. -/
def ofSize (rows columns : Nat) : Except GridError Grid := do
  checkSize rows columns
  let cells := (rectangle rows columns).foldl (fun cells a => cells.insert a Cell.blank) ∅
  return ⟨cells, rows, columns, ∅⟩

/-- The length of the longest of some rows. -/
def width (rows : List (List String)) : Nat := (rows.map List.length).foldl max 0

/-- The texts of some rows with their addresses, row by row. -/
def entries (rows : List (List String)) : List (Address × String) :=
  rows.zipIdx.flatMap fun (texts, row) => texts.zipIdx.map fun (text, column) =>
    (⟨row, column⟩, text)

/-- A grid with a text written into a cell that is not recalculated yet. -/
def place (g : Grid) (a : Address) (text : String) : Grid :=
  { g with cells := g.cells.insert a (.ofText text), pending := g.pending.insert a }

/-- A grid of rows of raw texts, short rows filled up with blank cells. Cells with a text that
is not the empty string are pending. -/
def ofRows (rows : List (List String)) : Except GridError Grid := do
  let g ← ofSize rows.length (width rows)
  return ((entries rows).filter fun (_, text) => text ≠ "").foldl
    (fun g (a, text) => g.place a text) g

end Grid

end Spreadsheet
