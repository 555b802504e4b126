import Spreadsheet.Settings.Document

/-!
# Loading the settings

Settings come from a file that the user names, or else from the user's own settings file. A
file that cannot be used leaves the defaults and a warning; only a file that the user did not
name may be missing without one.
-/

namespace Spreadsheet.Settings

/-- What is found at the path of a settings file. -/
inductive File where
  /-- There is no file. -/
  | missing
  /-- The file cannot be read. -/
  | unreadable
  /-- The bytes of the file. -/
  | contents (bytes : ByteArray)

/-- Why a settings file is not used. -/
inductive Warning where
  /-- The named file is missing. -/
  | notFound (path : String)
  /-- The file is too large to be read. -/
  | tooLarge (path : String) (size : Nat)
  /-- The file cannot be read as text. -/
  | unreadable (path : String)
  /-- The text is no settings file. -/
  | malformed (path : String)
  deriving DecidableEq, Repr

/-- The most bytes that a settings file may have. -/
def maxFileSize : Nat := 1048576

/-- The message for a settings file that is not used. -/
def Warning.message : Warning → String
  | .notFound path => "Config file not found: " ++ path
  | .tooLarge path size =>
    "Refusing to read " ++ path ++ ": file too large (" ++ toString size ++ " bytes, max " ++
      toString maxFileSize ++ ")"
  | .unreadable path => "Failed to read " ++ path
  | .malformed path => "Failed to parse " ++ path

/-- The settings of a file, and why it is not used if it is not. `named` says that the user
named the file. -/
def load (path : String) (named : Bool) : File → Settings × Option Warning
  | .missing => (standard, if named then some (.notFound path) else none)
  | .unreadable => (standard, some (.unreadable path))
  | .contents bytes =>
    if maxFileSize < bytes.size then (standard, some (.tooLarge path bytes.size))
    else match String.fromUTF8? bytes with
      | none => (standard, some (.unreadable path))
      | some text => match ofText? text with
        | none => (standard, some (.malformed path))
        | some settings => (settings, none)

end Spreadsheet.Settings
