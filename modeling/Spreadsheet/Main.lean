import Spreadsheet.CommandLine.Session

/-!
# The program

The outer layer of a run: it finds the user's settings file, reads the settings file that the
run asks for, and writes what the run gives.
-/

namespace Spreadsheet

/-- The path of the user's settings file, in the directory for configuration files. -/
def userSettingsFile : IO (Option String) := do
  let directory ← match (← IO.getEnv "XDG_CONFIG_HOME").filter (·.startsWith "/") with
    | some directory => pure (some directory)
    | none => pure ((← IO.getEnv "HOME").map (· ++ "/.config"))
  return directory.map (· ++ "/tabula/config.toml")

/-- What is found at a path. -/
def lookupSettings (path : String) : IO Settings.File := do
  try
    return .contents (← IO.FS.readBinFile path)
  catch
    | .noFileOrDirectory .. => return .missing
    | _ => return .unreadable

end Spreadsheet

/-- Run the program. -/
def main (arguments : List String) : IO UInt32 := do
  let output ← Spreadsheet.CommandLine.run arguments (← Spreadsheet.userSettingsFile)
    Spreadsheet.lookupSettings
  output.log.forM fun line => IO.eprintln line
  IO.print output.out
  return output.code.toUInt32
