import Spreadsheet.Text.Blank

/-!
# Command line options

The arguments are read from left to right; an option takes its value from the argument after
it, whatever that looks like. Later values replace earlier ones, assignments add up. A request
for help ends the reading.
-/

namespace Spreadsheet.CommandLine

/-- What the arguments ask for. -/
structure Options where
  /-- The names of the cells to write into and the texts to write, in order. -/
  assignments : List (String × String)
  /-- A formula to evaluate. -/
  command : Option String
  /-- The number of rows to begin with. -/
  rows : Option Nat
  /-- The number of columns to begin with. -/
  columns : Option Nat
  /-- The path of a settings file. -/
  config : Option String
  /-- Whether to do without a settings file. -/
  noConfig : Bool
  /-- Whether to report on the recalculation. -/
  verbose : Bool
  deriving DecidableEq, Repr

/-- The options of an empty command line. -/
def Options.empty : Options := ⟨[], none, none, none, none, false, false⟩

/-- The options that take a value. -/
inductive Valued where
  | set
  | command
  | rows
  | columns
  | config
  deriving DecidableEq, Repr

/-- An option. -/
inductive Flag where
  | help
  | noConfig
  | verbose
  | valued (v : Valued)
  deriving DecidableEq, Repr

/-- The long spelling, which messages use. -/
def Valued.long : Valued → String
  | .set => "--set"
  | .command => "--command"
  | .rows => "--rows"
  | .columns => "--cols"
  | .config => "--config"

/-- The spellings of an option. -/
def Flag.spellings : Flag → List String
  | .help => ["--help", "-h"]
  | .noConfig => ["--no-config"]
  | .verbose => ["--verbose", "-v"]
  | .valued .set => [Valued.set.long, "-s"]
  | .valued .command => [Valued.command.long, "-c"]
  | .valued v => [v.long]

/-- All options. -/
def Flag.all : List Flag :=
  [.help, .noConfig, .verbose, .valued .set, .valued .command, .valued .rows, .valued .columns,
    .valued .config]

/-- The option that an argument spells. -/
def Flag.ofArgument? (argument : String) : Option Flag :=
  Flag.all.find? fun flag => flag.spellings.contains argument

/-- Why the arguments cannot be read. -/
inductive OptionError where
  /-- An option is the last argument and needs a value. -/
  | missingValue (option : Valued)
  /-- An argument looks like an option and is none. -/
  | unknownOption (argument : String)
  /-- An argument is neither an option nor a value. -/
  | unexpectedArgument (argument : String)
  /-- A value is not a number. -/
  | invalidNumber (option : Valued) (value : String)
  /-- An assignment has no equals sign. -/
  | invalidAssignment (value : String)
  deriving DecidableEq, Repr

/-- The message for arguments that cannot be read. -/
def OptionError.message : OptionError → String
  | .missingValue option => option.long ++ " requires a value"
  | .unknownOption argument => "Unknown option: " ++ argument
  | .unexpectedArgument argument => "Unexpected argument: " ++ argument
  | .invalidNumber option value => "Invalid number for " ++ option.long ++ ": " ++ value
  | .invalidAssignment value => "Invalid assignment '" ++ value ++ "': expected CELL=TEXT"

/-- The number that a value writes: digits, perhaps behind a plus sign, below `2 ^ 64`. -/
def count? (value : String) : Option Nat :=
  let digits := match value.toList with
    | '+' :: digits => digits
    | digits => digits
  let n := Nat.ofDigitChars 10 digits 0
  if digits ≠ [] ∧ digits.all Char.isDigit ∧ n < UInt64.size then some n else none

/-- The name and the text of an assignment, which are divided at its first equals sign. Blanks
around the name are dropped. -/
def assignment? (value : String) : Option (String × String) :=
  match value.toList.dropWhile (· ≠ '=') with
  | [] => none
  | _ :: text =>
    some (String.ofList (Text.trim (value.toList.takeWhile (· ≠ '='))), String.ofList text)

namespace Options

/-- The options after one more value. -/
def withValue (o : Options) (option : Valued) (value : String) : Except OptionError Options :=
  match option with
  | .set => match assignment? value with
    | some a => .ok { o with assignments := o.assignments ++ [a] }
    | none => .error (.invalidAssignment value)
  | .command => .ok { o with command := some value }
  | .rows => match count? value with
    | some n => .ok { o with rows := some n }
    | none => .error (.invalidNumber option value)
  | .columns => match count? value with
    | some n => .ok { o with columns := some n }
    | none => .error (.invalidNumber option value)
  | .config => .ok { o with config := some value }

/-- The options after more arguments, or nothing if they ask for help. -/
def readFrom (o : Options) : List String → Except OptionError (Option Options)
  | [] => .ok (some o)
  | argument :: rest =>
    match Flag.ofArgument? argument with
    | some .help => .ok none
    | some .noConfig => readFrom { o with noConfig := true } rest
    | some .verbose => readFrom { o with verbose := true } rest
    | some (.valued option) =>
      match rest with
      | [] => .error (.missingValue option)
      | value :: rest =>
        match o.withValue option value with
        | .ok o => readFrom o rest
        | .error e => .error e
    | none =>
      if argument.toList.head? = some '-' then .error (.unknownOption argument)
      else .error (.unexpectedArgument argument)

/-- The options that the arguments ask for, or nothing if they ask for help. -/
def read (arguments : List String) : Except OptionError (Option Options) :=
  empty.readFrom arguments

end Options

end Spreadsheet.CommandLine
