import Spreadsheet.CommandLine.Options
import Spreadsheet.Grid.Recalculation
import Spreadsheet.Settings

/-!
# A run of the program

A run reads the settings, builds a grid, writes the assignments into it, growing it as needed,
and recalculates it. Then it prints the value of a formula, or else every cell whose text is
not blank with what it shows. Errors end the run with nothing printed. A run is a function of
the arguments and of what the settings file holds; the outer layer only reads that file and
writes what the run gives.
-/

namespace Spreadsheet.CommandLine

/-- What a run writes and how it exits. -/
structure Output where
  /-- The exit code. -/
  code : Nat
  /-- The text for standard output. -/
  out : String
  /-- The lines for standard error. -/
  log : List String
  deriving DecidableEq, Repr

/-- The help text, line by line. -/
def usage : List String := [
  "Usage: tabula [OPTIONS]",
  "",
  "Options:",
  "  -s, --set <CELL=TEXT>     Set a cell's raw text (can be repeated)",
  "  -c, --command <FORMULA>   Evaluate a formula against the cells and print it",
  "  --rows <N>                Initial number of rows",
  "  --cols <N>                Initial number of columns",
  "  --config <path>           Load settings from TOML file",
  "  --no-config               Ignore the user config file",
  "  -v, --verbose             Log recalculation details to stderr",
  "  -h, --help                Print help"]

/-- Why a run ends early. -/
inductive Failure where
  /-- The grid cannot be built. -/
  | creating (e : GridError)
  /-- A name in an assignment is not the name of a cell. -/
  | naming (name : String)
  /-- The cell with the given name cannot be written. -/
  | setting (name : String) (e : GridError)
  deriving DecidableEq, Repr

/-- The message for a run that ends early. -/
def Failure.message : Failure → String
  | .creating e => "creating workbook: " ++ e.message
  | .naming name => (GridError.invalidName name).message
  | .setting name e => "setting " ++ name ++ ": " ++ e.message

/-- A grid with a text written into the cell with a name, the grid grown if need be. -/
def assign (g : Grid) : String × String → Except Failure Grid
  | (name, text) =>
    match Address.parse? name with
    | none => .error (.naming name)
    | some a => ((g.growToFit a).bind fun g => g.setText a text).mapError (.setting name)

/-- The recalculated grid that the options describe. -/
def build (o : Options) (settings : Settings) : Except Failure Grid := do
  let g ← (Grid.ofSize (o.rows.getD settings.rows) (o.columns.getD settings.columns)).mapError
    Failure.creating
  return (← o.assignments.foldlM assign g).recalculateAll

/-- The line for a cell, if its text is not blank. -/
def cellLine? (a : Address) (cell : Cell) : Option String :=
  if Text.allBlank cell.text.toList then none
  else some (match cell.message with
    | some message => a.name ++ "\t" ++ cell.display ++ "\t" ++ message ++ "\n"
    | none => a.name ++ "\t" ++ cell.display ++ "\n")

/-- The lines for the cells of a grid, row by row. -/
def listing (g : Grid) : String :=
  String.join (g.cells.toList.filterMap fun (a, cell) => cellLine? a cell)

/-- The text of a command as a formula: the equals sign may be left out. -/
def commandFormula (command : String) : String :=
  if command.toList.head? = some '=' then command else "=" ++ command

/-- What a run prints about its grid. -/
def answer (o : Options) (g : Grid) : String :=
  match o.command with
  | some command => (g.sheet.value (commandFormula command)).display ++ "\n"
  | none => listing g

/-- What a run reports about the recalculation of its grid if it is asked to. -/
def report (o : Options) (g : Grid) : List String :=
  if o.verbose then
    ("[DEBUG] recalculating all " ++ toString g.size ++ " cells") ::
      g.circularReferences.map fun way =>
        "[DEBUG] circular reference: " ++ " -> ".intercalate (way.map Address.name)
  else []

/-- A run with options and settings, after the warnings about the settings. -/
def runWith (o : Options) (settings : Settings) (warnings : List String) : Output :=
  match build o settings with
  | .error e => ⟨1, "", warnings ++ ["Error: " ++ e.message]⟩
  | .ok g => ⟨0, answer o g, warnings ++ report o g⟩

/-- Where the settings of a run come from: the path of the file, and whether the user named
it. Without a user's file, or when none is wanted, they come from no file. -/
def settingsFile? (o : Options) (userFile : Option String) : Option (String × Bool) :=
  if o.noConfig then none
  else match o.config with
    | some path => some (path, true)
    | none => userFile.map (·, false)

/-- The run that the arguments ask for. `userFile` is the path of the user's settings file and
`lookup` what is found at a path. -/
def run {m : Type → Type} [Monad m] (arguments : List String) (userFile : Option String)
    (lookup : String → m Settings.File) : m Output :=
  match Options.read arguments with
  | .error e => return ⟨1, "", ("Error: " ++ e.message) :: usage⟩
  | .ok none => return ⟨0, "", usage⟩
  | .ok (some o) => do
    let (settings, warning) ← match settingsFile? o userFile with
      | none => pure (Settings.standard, none)
      | some (path, named) => do pure (Settings.load path named (← lookup path))
    return runWith o settings (warning.toList.map fun w => "[WARN] " ++ w.message)

end Spreadsheet.CommandLine
