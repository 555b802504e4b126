/-!
# Column letters

Columns are lettered `A` to `Z`, then `AA`, `AB` and so on: a numeral in base twenty-six
whose digits run from one to twenty-six. `ordinal` reads the letters as a number counted from
one, `letters` writes the letters of a column counted from zero.
-/

namespace Spreadsheet.Column

/-- The digit of a letter: `A` is one and `Z` twenty-six. -/
def digit (letter : Char) : Nat := letter.toNat - 64

/-- The letter of a digit counted from zero. -/
def letter (digit : Nat) : Char := Char.ofNat (65 + digit)

/-- The number that letters write, counted from one; no letters write zero. -/
def ordinal (letters : List Char) : Nat := letters.foldl (fun n c => 26 * n + digit c) 0

/-- The letters of a column counted from zero. -/
def letters (column : Nat) : List Char :=
  if column < 26 then [letter column]
  else letters (column / 26 - 1) ++ [letter (column % 26)]
termination_by column
decreasing_by omega

theorem digit_letter {d : Nat} (h : d < 26) : digit (letter d) = d + 1 := by
  have key : ∀ d : Fin 26, digit (letter d) = d + 1 := by decide
  exact key ⟨d, h⟩

theorem ordinal_append_singleton (cs : List Char) (c : Char) :
    ordinal (cs ++ [c]) = 26 * ordinal cs + digit c := by
  simp [ordinal]

/-- The letters of a column write its number counted from one. -/
theorem ordinal_letters (column : Nat) : ordinal (letters column) = column + 1 := by
  induction column using Nat.strongRecOn with
  | _ n ih =>
    rw [letters]
    split
    · rename_i h
      simp [ordinal, digit_letter h]
    · rename_i h
      have hlast : n % 26 < 26 := Nat.mod_lt n (by decide)
      rw [ordinal_append_singleton, ih _ (by omega), digit_letter hlast]
      omega

/-- No two columns have the same letters. -/
theorem letters_injective {a b : Nat} (h : letters a = letters b) : a = b := by
  have := congrArg ordinal h
  rw [ordinal_letters, ordinal_letters] at this
  omega

end Spreadsheet.Column
