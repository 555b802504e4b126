/-!
# Blank text

A blank character is one with the Unicode property `White_Space`; twenty-five characters
have it. Trimming removes the blanks at both ends of a text and nothing else, and a text is
blank when all its characters are.
-/

namespace Spreadsheet.Text

/-- The characters with the Unicode property `White_Space`. -/
def isBlank (c : Char) : Bool :=
  let n := c.toNat
  (0x09 ≤ n && n ≤ 0x0D) || n == 0x20 || n == 0x85 || n == 0xA0 || n == 0x1680 ||
    (0x2000 ≤ n && n ≤ 0x200A) || n == 0x2028 || n == 0x2029 || n == 0x202F ||
    n == 0x205F || n == 0x3000

/-- A text without the blanks at its two ends. -/
def trim (text : List Char) : List Char :=
  ((text.dropWhile isBlank).reverse.dropWhile isBlank).reverse

/-- A text of blanks only; the empty text is one. -/
def allBlank (text : List Char) : Bool := text.all isBlank

end Spreadsheet.Text
