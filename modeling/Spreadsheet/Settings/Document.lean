/-!
# The settings file

A settings file is a TOML document, and the reader here stands for a general reader of that format
together with the check of what it has read. Tables, other keys and values that are no whole
numbers are fine as TOML and refused by the check, so the lines that are left are all that need be
read: a line may assign a whole number to one of the keys `rows` and `columns`, which may be
quoted, and may end in a comment; a key is assigned at most once. Numbers are decimal, or
hexadecimal, octal or binary behind `0x`, `0o` or `0b`, with single underscores between digits,
and fit in sixty-three bits. A file with anything else in it is refused as a whole.
-/

namespace Spreadsheet

/-- The settings of a program run. -/
structure Settings where
  /-- The number of rows to begin with. -/
  rows : Nat
  /-- The number of columns to begin with. -/
  columns : Nat
  deriving DecidableEq, Repr

namespace Settings

/-- The settings where no file says otherwise. -/
def standard : Settings := ⟨10, 10⟩

/-- The keys of a settings file. -/
inductive Key where
  | rows
  | columns
  deriving DecidableEq, Repr

/-- The key with a name. -/
def Key.ofName? (name : List Char) : Option Key :=
  if name = ['r', 'o', 'w', 's'] then some .rows
  else if name = ['c', 'o', 'l', 'u', 'm', 'n', 's'] then some .columns
  else none

/-- Space within a line. -/
def isGap (c : Char) : Bool := c == ' ' || c == '\t'

/-- A character that may stand in a comment: any but the control characters other than tab. -/
def isCommentChar (c : Char) : Bool := c == '\t' || (0x20 ≤ c.toNat && c.toNat != 0x7f)

/-- Whether nothing but space and perhaps a comment is left of a line. -/
def atEnd (line : List Char) : Bool :=
  match line.dropWhile isGap with
  | [] => true
  | '#' :: comment => comment.all isCommentChar
  | _ => false

/-- The value of a digit in a base up to sixteen. -/
def digit? (base : Nat) (c : Char) : Option Nat :=
  let value :=
    if c.isDigit then some (c.toNat - 48)
    else if 'a' ≤ c ∧ c ≤ 'f' then some (c.toNat - 87)
    else if 'A' ≤ c ∧ c ≤ 'F' then some (c.toNat - 55)
    else none
  value.filter (· < base)

/-- A value continued by more digits, each perhaps behind a single underscore. -/
def moreDigits (base value : Nat) : List Char → Option Nat
  | [] => some value
  | '_' :: c :: rest => (digit? base c).bind fun d => moreDigits base (base * value + d) rest
  | c :: rest => (digit? base c).bind fun d => moreDigits base (base * value + d) rest

/-- The value of digits with single underscores between them, at least one digit. -/
def digits? (base : Nat) : List Char → Option Nat
  | [] => none
  | c :: rest => (digit? base c).bind fun d => moreDigits base d rest

/-- A decimal number without leading zeros. -/
def decimal? (text : List Char) : Option Nat :=
  if text = ['0'] then some 0
  else if text.head? = some '0' then none
  else digits? 10 text

/-- A whole number that is not negative. -/
def integer? (text : List Char) : Option Nat :=
  let value := match text with
    | '0' :: 'x' :: digits => digits? 16 digits
    | '0' :: 'o' :: digits => digits? 8 digits
    | '0' :: 'b' :: digits => digits? 2 digits
    | '+' :: digits => decimal? digits
    | '-' :: digits => (decimal? digits).filter (· = 0)
    | digits => decimal? digits
  value.filter (· < 1 <<< 63)

/-- The character with a hexadecimal code. -/
def escaped? (digits : List Char) : Option Char := do
  let values ← digits.mapM (digit? 16)
  let code := values.foldl (fun n d => 16 * n + d) 0
  if code.isValidChar then some (Char.ofNat code) else none

/-- The rest of a name in quotation marks, its escaped characters decoded, and what follows. -/
def quotedName? : List Char → Option (List Char × List Char)
  | [] => none
  | '"' :: rest => some ([], rest)
  | '\\' :: 'u' :: a :: b :: c :: d :: rest => do
    let found ← escaped? [a, b, c, d]
    let (name, left) ← quotedName? rest
    return (found :: name, left)
  | '\\' :: 'U' :: a :: b :: c :: d :: e :: f :: g :: h :: rest => do
    let found ← escaped? [a, b, c, d, e, f, g, h]
    let (name, left) ← quotedName? rest
    return (found :: name, left)
  | '\\' :: _ => none
  | c :: rest => do
    let (name, left) ← quotedName? rest
    return (c :: name, left)

/-- The key at the head of a line, bare or in either kind of quotation marks, and what follows
it. -/
def key? (line : List Char) : Option (Key × List Char) :=
  match line with
  | '"' :: rest => do
    let (name, left) ← quotedName? rest
    return (← Key.ofName? name, left)
  | '\'' :: rest =>
    match rest.dropWhile (· ≠ '\'') with
    | [] => none
    | _ :: left => (Key.ofName? (rest.takeWhile (· ≠ '\''))).map (·, left)
  | _ =>
    let isBare (c : Char) : Bool := c.isAlphanum || c == '_' || c == '-'
    (Key.ofName? (line.takeWhile isBare)).map (·, line.dropWhile isBare)

/-- What a line assigns, which may be nothing; none if the line is malformed. -/
def line? (line : List Char) : Option (Option (Key × Nat)) :=
  if atEnd line then some none
  else do
    let (key, afterKey) ← key? (line.dropWhile isGap)
    match afterKey.dropWhile isGap with
    | '=' :: assigned =>
      let isValue (c : Char) : Bool := !isGap c && c != '#'
      let assigned := assigned.dropWhile isGap
      let value ← integer? (assigned.takeWhile isValue)
      if atEnd (assigned.dropWhile isValue) then return some (key, value) else none
    | _ => none

/-- The values assigned so far. -/
structure Draft where
  /-- The value of `rows`. -/
  rows : Option Nat
  /-- The value of `columns`. -/
  columns : Option Nat
  deriving DecidableEq, Repr

/-- The values after one more assignment, unless its key has a value already. -/
def Draft.assign (draft : Draft) : Key → Nat → Option Draft
  | .rows, n => if draft.rows.isSome then none else some { draft with rows := some n }
  | .columns, n => if draft.columns.isSome then none else some { draft with columns := some n }

/-- The values after a line. -/
def Draft.read? (draft : Draft) (line : List Char) : Option Draft :=
  match line? line with
  | none => none
  | some none => some draft
  | some (some (key, value)) => draft.assign key value

/-- A line without the carriage return of its line end. -/
def stripReturn (line : List Char) : List Char :=
  if line.getLast? = some '\x0d' then line.dropLast else line

/-- The values after the lines of a text. -/
def readLines? (draft : Draft) (text : List Char) : Option Draft :=
  let line := text.takeWhile (· ≠ '\n')
  match _h : text.dropWhile (· ≠ '\n') with
  | [] => draft.read? line
  | _ :: rest =>
    match draft.read? (stripReturn line) with
    | none => none
    | some draft => readLines? draft rest
termination_by text.length
decreasing_by
  have hle := (List.dropWhile_sublist (· ≠ '\n') (l := text)).length_le
  rw [_h] at hle
  exact hle

/-- The settings in the text of a file, which may begin with a byte order mark; a key that is
not assigned keeps its default. -/
def ofText? (text : String) : Option Settings :=
  let text := match text.toList with
    | '\ufeff' :: rest => rest
    | text => text
  (readLines? ⟨none, none⟩ text).map fun draft =>
    ⟨draft.rows.getD standard.rows, draft.columns.getD standard.columns⟩

end Settings

end Spreadsheet
