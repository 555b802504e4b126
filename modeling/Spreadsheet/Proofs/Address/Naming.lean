import Mathlib.Data.List.Basic
import Mathlib.Data.List.Induction
import Mathlib.Data.Nat.Digits.Defs
import Spreadsheet.Address
import Spreadsheet.Proofs.Formula.Lexeme

/-!
# Names and addresses

Every address within bounds has one name without leading zeros, and every name of a cell is that
name with zeros in front of its row. The letters of a column are its number in a base without a
digit for zero, so they determine it without any rule for leading digits.

The numbers that a name writes are bounded by a word of sixty-four bits. Reading them digit by
digit in words, and giving up at the first product or sum that does not fit, gives up exactly for
the numbers that do not fit as a whole.
-/

namespace Spreadsheet

theorem all_append_singleton {p : Char → Bool} {front : List Char} {c : Char} :
    (front ++ [c]).all p = true ↔ front.all p = true ∧ p c = true := by
  simp

namespace Column

variable {c : Char} {cs : List Char}

theorem digit_pos (h : c.isUpper = true) : 0 < digit c := by
  have hc := isUpper_iff.mp h
  rw [digit]
  omega

theorem digit_le (h : c.isUpper = true) : digit c ≤ 26 := by
  have hc := isUpper_iff.mp h
  rw [digit]
  omega

theorem letter_digit (h : c.isUpper = true) : letter (digit c - 1) = c := by
  have hc := isUpper_iff.mp h
  have hcode : 65 + (c.toNat - 64 - 1) = c.toNat := by omega
  rw [letter, digit, hcode, Char.ofNat_toNat]

theorem isUpper_letter {d : Nat} (h : d < 26) : (letter d).isUpper = true := by
  have key : ∀ d : Fin 26, (letter d).isUpper = true := by decide
  exact key ⟨d, h⟩

theorem letters_ne_nil (column : Nat) : letters column ≠ [] := by
  rw [letters]
  split <;> simp

theorem isUpper_letters (column : Nat) : (letters column).all Char.isUpper = true := by
  induction column using Nat.strongRecOn with
  | _ n ih =>
    rw [letters]
    split
    · rename_i h
      simp [isUpper_letter h]
    · have hlast : n % 26 < 26 := Nat.mod_lt n (by decide)
      rw [List.all_append, ih _ (by omega)]
      simp [isUpper_letter hlast]

theorem ordinal_pos (hne : cs ≠ []) (h : cs.all Char.isUpper = true) : 0 < ordinal cs := by
  obtain ⟨front, c, rfl⟩ := (List.eq_nil_or_concat' cs).resolve_left hne
  have hdigit := digit_pos (all_append_singleton.mp h).2
  rw [ordinal_append_singleton]
  omega

/-- Capital letters are the letters of the column whose number they write. -/
theorem letters_ordinal (hne : cs ≠ []) (h : cs.all Char.isUpper = true) :
    letters (ordinal cs - 1) = cs := by
  -- From the last letter to the first, as letters are written.
  induction cs using List.reverseRecOn with
  | nil => exact absurd rfl hne
  | append_singleton front c ih =>
    obtain ⟨hupper, hc⟩ := all_append_singleton.mp h
    have hpos := digit_pos hc
    have hle := digit_le hc
    rw [ordinal_append_singleton, letters]
    by_cases hfront : front = []
    · subst hfront
      have hsum : 26 * ordinal [] + digit c - 1 = digit c - 1 := by simp [ordinal]
      rw [hsum, if_pos (by omega), letter_digit hc, List.nil_append]
    · have hordinal := ordinal_pos hfront hupper
      have hquotient : (26 * ordinal front + digit c - 1) / 26 - 1 = ordinal front - 1 := by omega
      have hremainder : (26 * ordinal front + digit c - 1) % 26 = digit c - 1 := by omega
      rw [if_neg (by omega), hquotient, hremainder, ih hfront hupper, letter_digit hc]

/-- Letters written from the last to the first, in front of those that are written already. `n` is
the number that is left. -/
def lettersFrom (n : Nat) (written : List Char) : List Char :=
  if n = 0 then written else lettersFrom ((n - 1) / 26) (letter ((n - 1) % 26) :: written)
termination_by n
decreasing_by omega

/-- The letters of a column are written in front of what is there. -/
theorem lettersFrom_succ (column : Nat) (written : List Char) :
    lettersFrom (column + 1) written = letters column ++ written := by
  induction column using Nat.strongRecOn generalizing written with
  | _ n ih =>
    rw [lettersFrom, if_neg (Nat.succ_ne_zero n), Nat.add_sub_cancel, letters]
    split
    · rename_i h
      have hquotient : n / 26 = 0 := Nat.div_eq_of_lt h
      rw [hquotient, Nat.mod_eq_of_lt h, lettersFrom, if_pos rfl, List.singleton_append]
    · have hquotient : n / 26 = n / 26 - 1 + 1 := by omega
      rw [hquotient, ih _ (by omega), List.append_assoc, List.singleton_append, Nat.add_sub_cancel]

end Column

/-- The digit that a character writes. -/
def digitValue (c : Char) : Nat := c.toNat - '0'.toNat

variable {c : Char} {digits : List Char}

theorem digitValue_lt (h : c.isDigit = true) : digitValue c < 10 := by
  have hc := isDigit_iff.mp h
  change c.toNat - 48 < 10
  omega

theorem digitChar_digitValue (h : c.isDigit = true) : (digitValue c).digitChar = c := by
  have hc := isDigit_iff.mp h
  have key : ∀ d : Fin 10, Nat.digitChar d = Char.ofNat (48 + d) := by decide
  have hcode : 48 + digitValue c = c.toNat := by
    change 48 + (c.toNat - 48) = c.toNat
    omega
  rw [key ⟨digitValue c, digitValue_lt h⟩, hcode, Char.ofNat_toNat]

theorem ofDigitChars_append_singleton (digits : List Char) (c : Char) :
    Nat.ofDigitChars 10 (digits ++ [c]) 0 =
      10 * Nat.ofDigitChars 10 digits 0 + digitValue c := by
  rw [Nat.ofDigitChars_append, Nat.ofDigitChars_cons, Nat.ofDigitChars_nil, digitValue]

/-- Digits that write zero are zeros. -/
theorem dropWhile_eq_nil_of_ofDigitChars (h : digits.all Char.isDigit = true)
    (hzero : Nat.ofDigitChars 10 digits 0 = 0) : digits.dropWhile (· == '0') = [] := by
  induction digits using List.reverseRecOn with
  | nil => rfl
  | append_singleton front c ih =>
    obtain ⟨hfront, hc⟩ := all_append_singleton.mp h
    rw [ofDigitChars_append_singleton] at hzero
    have hdigit : '0' = c := by
      rw [← digitChar_digitValue hc, Nat.zero_eq_digitChar]
      omega
    rw [List.dropWhile_append, ih hfront (by omega), ← hdigit]
    rfl

/-- The digits of a number that digits write are those digits without the zeros in front. -/
theorem toDigits_ofDigitChars (h : digits.all Char.isDigit = true)
    (hpos : 0 < Nat.ofDigitChars 10 digits 0) :
    Nat.toDigits 10 (Nat.ofDigitChars 10 digits 0) = digits.dropWhile (· == '0') := by
  induction digits using List.reverseRecOn with
  | nil => cases hpos
  | append_singleton front c ih =>
    obtain ⟨hdigits, hc⟩ := all_append_singleton.mp h
    have hlast : Nat.toDigits 10 (digitValue c) = [c] := by
      rw [Nat.toDigits_of_lt_base (digitValue_lt hc), digitChar_digitValue hc]
    rw [ofDigitChars_append_singleton] at hpos ⊢
    rw [List.dropWhile_append]
    rcases Nat.eq_zero_or_pos (Nat.ofDigitChars 10 front 0) with hzero | hfront
    · have hdigit : ¬ ((c == '0') = true) := by
        rw [beq_iff_eq]
        rintro rfl
        rw [hzero] at hpos
        exact absurd hpos (by decide)
      rw [hzero, Nat.mul_zero, Nat.zero_add, hlast, dropWhile_eq_nil_of_ofDigitChars hdigits hzero,
        List.isEmpty_nil, if_pos rfl, List.dropWhile_cons_of_neg (by exact hdigit)]
    · have hne : ((front.dropWhile (· == '0')).isEmpty) = false := by
        rw [← ih hdigits hfront, List.isEmpty_eq_false_iff]
        exact Nat.toDigits_ne_nil
      rw [← Nat.toDigits_append_toDigits (by decide) hfront (digitValue_lt hc), hlast,
        ih hdigits hfront, hne]
      rfl

namespace Address

variable {base : Nat} {digit : Char → Nat} {text : List Char}

/-- The number that digits write in a base, the last digit counting once. -/
def positional (base : Nat) (digit : Char → Nat) (text : List Char) : Nat :=
  Nat.ofDigits base (text.reverse.map digit)

/-- A number that fits in a word. -/
def word? (n : Nat) : Option Nat := if n < bound then some n else none

/-- The number that digits write in a base, read from left to right in words: every product and
every sum on the way has to fit. -/
def readWord? (base : Nat) (digit : Char → Nat) (text : List Char) : Option Nat :=
  text.foldlM (fun n c => do word? ((← word? (base * n)) + digit c)) 0

/-- Reading digit by digit gives the number that is written. -/
theorem foldl_eq_positional (base : Nat) (digit : Char → Nat) (text : List Char) :
    text.foldl (fun n c => base * n + digit c) 0 = positional base digit text := by
  induction text using List.reverseRecOn with
  | nil => rfl
  | append_singleton front c ih =>
    rw [List.foldl_append, List.foldl_cons, List.foldl_nil, ih, positional, positional,
      List.reverse_append, List.reverse_singleton, List.singleton_append, List.map_cons,
      Nat.ofDigits_cons, Nat.add_comm]

theorem le_foldl (hbase : 0 < base) (n : Nat) :
    n ≤ text.foldl (fun n c => base * n + digit c) n := by
  induction text generalizing n with
  | nil => exact Nat.le_refl n
  | cons c text ih =>
    calc n ≤ base * n := Nat.le_mul_of_pos_left n hbase
      _ ≤ base * n + digit c := Nat.le_add_right _ _
      _ ≤ _ := ih _

/-- Reading in words gives up exactly if the number as a whole does not fit. -/
theorem readWord?_eq (hbase : 0 < base) (digit : Char → Nat) (text : List Char) :
    readWord? base digit text = word? (positional base digit text) := by
  -- Whatever is read already, it is no more than what is read in the end.
  have hfold : ∀ n < bound, text.foldlM (fun n c => do word? ((← word? (base * n)) + digit c)) n =
      word? (text.foldl (fun n c => base * n + digit c) n) := by
    induction text with
    | nil =>
      intro n hn
      exact (if_pos hn).symm
    | cons c text ih =>
      intro n hn
      rw [List.foldlM_cons, List.foldl_cons]
      by_cases hsum : base * n + digit c < bound
      · have hproduct : base * n < bound := by omega
        simp only [word?, if_pos hproduct, Option.bind_eq_bind, Option.bind_some, if_pos hsum]
        exact ih _ hsum
      · have hmore : ¬ text.foldl (fun n c => base * n + digit c) (base * n + digit c) < bound :=
          fun hlt => hsum (lt_of_le_of_lt (le_foldl hbase _) hlt)
        have hstep : (do word? ((← word? (base * n)) + digit c)) = none := by
          by_cases hproduct : base * n < bound <;> simp [word?, hproduct, hsum]
        rw [hstep, word?, if_neg hmore]
        rfl
  rw [readWord?, hfold 0 (by decide), foldl_eq_positional]

/-- A number is a word exactly if it is below the bound. -/
theorem word?_eq_some_iff {n m : Nat} : word? n = some m ↔ n < bound ∧ m = n := by
  rw [word?, Option.ite_none_right_eq_some, Option.some.injEq, eq_comm (a := m)]

/-- A name is capital letters with digits behind them. -/
structure Splits (name : String) (letters digits : List Char) : Prop where
  /-- There is nothing else in the name. -/
  append : name.toList = letters ++ digits
  /-- There is a letter. -/
  letters_ne_nil : letters ≠ []
  /-- The letters are capital. -/
  upper : letters.all Char.isUpper = true
  /-- There is a digit. -/
  digits_ne_nil : digits ≠ []
  /-- Behind the letters there are only digits. -/
  digit : digits.all Char.isDigit = true

variable {name : String} {letters digits : List Char} {a : Address}

theorem not_isUpper_of_mem_head? (h : digits.all Char.isDigit = true) :
    ∀ c ∈ digits.head?, c.isUpper = false :=
  fun c hc => not_isUpper_of_isDigit (List.all_eq_true.mp h c (List.mem_of_head? hc))

/-- A name is split where its capital letters end. -/
theorem Splits.parts (h : Splits name letters digits) :
    name.toList.takeWhile Char.isUpper = letters ∧
      name.toList.dropWhile Char.isUpper = digits := by
  rw [h.append]
  exact takeWhile_dropWhile_append h.upper (not_isUpper_of_mem_head? h.digit)

/-- A column is read as the number that its letters write, unless this is no word. -/
theorem readColumn?_eq (letters : List Char) :
    readColumn? letters = (word? (positional 26 Column.digit letters)).filter (0 < ·) := by
  have hordinal : Column.ordinal letters = positional 26 Column.digit letters :=
    foldl_eq_positional 26 Column.digit letters
  simp only [readColumn?, hordinal, word?]
  split <;> split <;> simp_all [Option.filter]

/-- A row is read as the number that its digits write, unless this is no word. -/
theorem readRow?_eq (hne : digits ≠ []) (h : digits.all Char.isDigit = true) :
    readRow? digits = (word? (positional 10 digitValue digits)).filter (0 < ·) := by
  have hvalue : Nat.ofDigitChars 10 digits 0 = positional 10 digitValue digits :=
    foldl_eq_positional 10 digitValue digits
  simp only [readRow?, hvalue, word?]
  split <;> split <;> simp_all [Option.filter]

theorem filter_word?_eq_some_iff {n m : Nat} :
    (word? n).filter (0 < ·) = some m ↔ 0 < n ∧ n < bound ∧ m = n := by
  rw [Option.filter_eq_some_iff, word?_eq_some_iff, decide_eq_true_eq]
  constructor
  · rintro ⟨⟨hlt, rfl⟩, hpos⟩
    exact ⟨hpos, hlt, rfl⟩
  · rintro ⟨hpos, hlt, rfl⟩
    exact ⟨⟨hlt, rfl⟩, hpos⟩

/-- A name is the name of an address if its letters and its digits write the column and the row,
counted from one and within bounds. -/
theorem parse?_eq_some_iff : parse? name = some a ↔ ∃ letters digits, Splits name letters digits ∧
    positional 26 Column.digit letters = a.column + 1 ∧ a.column + 1 < bound ∧
    positional 10 digitValue digits = a.row + 1 ∧ a.row + 1 < bound := by
  constructor
  · intro h
    have hparts : name.toList = name.toList.takeWhile Char.isUpper ++
        name.toList.dropWhile Char.isUpper := List.takeWhile_append_dropWhile.symm
    have hupper : (name.toList.takeWhile Char.isUpper).all Char.isUpper = true :=
      List.all_takeWhile
    simp only [parse?] at h
    generalize name.toList.takeWhile Char.isUpper = letters at h hparts hupper
    generalize name.toList.dropWhile Char.isUpper = digits at h hparts
    split at h
    · rename_i column row hcolumn hrow
      obtain rfl := Option.some.inj h
      have hdigits : digits ≠ [] ∧ digits.all Char.isDigit = true := by
        simp only [readRow?] at hrow
        split at hrow
        · rename_i hrow'
          exact ⟨hrow'.1, hrow'.2.1⟩
        · cases hrow
      rw [readColumn?_eq, filter_word?_eq_some_iff] at hcolumn
      rw [readRow?_eq hdigits.1 hdigits.2, filter_word?_eq_some_iff] at hrow
      have hletters : letters ≠ [] := by
        rintro rfl
        exact absurd hcolumn.1 (Nat.lt_irrefl 0)
      refine ⟨letters, digits, ⟨hparts, hletters, hupper, hdigits.1, hdigits.2⟩, ?_⟩
      dsimp only
      omega
    · cases h
  · rintro ⟨letters, digits, hsplits, hcolumn, hcolumn', hrow, hrow'⟩
    have hreadColumn : readColumn? letters = some (a.column + 1) := by
      rw [readColumn?_eq, filter_word?_eq_some_iff, hcolumn]
      exact ⟨Nat.succ_pos _, hcolumn', rfl⟩
    have hreadRow : readRow? digits = some (a.row + 1) := by
      rw [readRow?_eq hsplits.digits_ne_nil hsplits.digit, filter_word?_eq_some_iff, hrow]
      exact ⟨Nat.succ_pos _, hrow', rfl⟩
    simp only [parse?, hsplits.parts.1, hsplits.parts.2, hreadColumn, hreadRow,
      Nat.add_sub_cancel]

/-- The address that a name writes, its letters and digits read one by one in words. -/
def readName? (name : String) : Option Address :=
  let letters := name.toList.takeWhile Char.isUpper
  let digits := name.toList.dropWhile Char.isUpper
  if letters = [] ∨ digits = [] ∨ digits.all Char.isDigit = false then none
  else do
    let column ← readWord? 26 Column.digit letters
    let row ← readWord? 10 digitValue digits
    match column, row with
    | column + 1, row + 1 => some ⟨row, column⟩
    | _, _ => none

/-- A number on the way is too large only if the number in the end is. -/
theorem parse?_eq_readName? (name : String) : parse? name = readName? name := by
  simp only [parse?, readName?]
  generalize name.toList.takeWhile Char.isUpper = letters
  generalize name.toList.dropWhile Char.isUpper = digits
  by_cases hshape : letters = [] ∨ digits = [] ∨ digits.all Char.isDigit = false
  · have hnone : readColumn? letters = none ∨ readRow? digits = none := by
      rcases hshape with rfl | rfl | hdigit
      · exact .inl rfl
      · exact .inr rfl
      · exact .inr (by simp [readRow?, hdigit])
    rw [if_pos hshape]
    rcases hnone with hnone | hnone <;> rw [hnone]
    cases readColumn? letters <;> rfl
  · obtain ⟨_, hne, hdigit⟩ := by simpa only [not_or] using hshape
    rw [if_neg hshape, readColumn?_eq, readRow?_eq hne (Bool.not_eq_false _ ▸ hdigit),
      readWord?_eq (by decide), readWord?_eq (by decide)]
    rcases word? (positional 26 Column.digit letters) with _ | _ | column <;>
      rcases word? (positional 10 digitValue digits) with _ | _ | row <;> rfl

theorem bound_eq : bound = 2 ^ 64 - 1 + 1 := rfl

theorem Splits.column_pos (h : Splits name letters digits) :
    0 < positional 26 Column.digit letters := by
  rw [← foldl_eq_positional]
  exact Column.ordinal_pos h.letters_ne_nil h.upper

/-- The name of an address is the text that it was read from, without leading zeros. -/
theorem Splits.name_eq (h : Splits name letters digits)
    (hcolumn : positional 26 Column.digit letters = a.column + 1)
    (hrow : positional 10 digitValue digits = a.row + 1) :
    a.name.toList = letters ++ digits.dropWhile (· == '0') := by
  have hordinal : Column.ordinal letters = a.column + 1 :=
    (foldl_eq_positional 26 Column.digit letters).trans hcolumn
  have hvalue : Nat.ofDigitChars 10 digits 0 = a.row + 1 :=
    (foldl_eq_positional 10 digitValue digits).trans hrow
  have hletters : Column.letters a.column = letters := by
    have h := Column.letters_ordinal h.letters_ne_nil h.upper
    rwa [hordinal, Nat.add_sub_cancel] at h
  have hdigits : Nat.toDigits 10 (a.row + 1) = digits.dropWhile (· == '0') := by
    rw [← hvalue]
    exact toDigits_ofDigitChars h.digit (by omega)
  rw [Address.name, String.toList_ofList, hletters, hdigits]

/-- The name of an address is letters and digits. -/
theorem splits_name (a : Address) :
    Splits a.name (Column.letters a.column) (Nat.toDigits 10 (a.row + 1)) where
  append := String.toList_ofList
  letters_ne_nil := Column.letters_ne_nil a.column
  upper := Column.isUpper_letters a.column
  digits_ne_nil := Nat.toDigits_ne_nil
  digit := List.all_eq_true.mpr fun _ hc =>
    Nat.isDigit_of_mem_toDigits (by decide) (by decide) hc

/-- The name of an address within the bounds is read back. -/
theorem parse?_name (hcolumn : a.column + 1 < bound) (hrow : a.row + 1 < bound) :
    parse? a.name = some a := by
  refine parse?_eq_some_iff.mpr ⟨_, _, splits_name a, ?_, hcolumn, ?_, hrow⟩
  · rw [← foldl_eq_positional]
    exact Column.ordinal_letters a.column
  · rw [← foldl_eq_positional]
    exact Nat.ofDigitChars_ten_toDigits

/-- A text names a cell exactly if it is capital letters with digits behind them, and the column
and the row that they write, counted from one, fit in a word. The name of that cell is the text
without the zeros in front of its digits. Every address whose row and column fit is the one that
its name names, and no two columns have the same letters. It makes no difference whether the
numbers are bounded in the end or on the way, and whether letters are written one by one. -/
theorem parse?_inverts_name :
    (∀ text, (parse? text).isSome = true ↔ ∃ letters digits, Splits text letters digits ∧
      positional 26 Column.digit letters ≤ 2 ^ 64 - 1 ∧
      1 ≤ positional 10 digitValue digits ∧ positional 10 digitValue digits ≤ 2 ^ 64 - 1) ∧
    (∀ text a, parse? text = some a → ∃ letters digits, Splits text letters digits ∧
      positional 26 Column.digit letters = a.column + 1 ∧
      positional 10 digitValue digits = a.row + 1 ∧
      a.name.toList = letters ++ digits.dropWhile (· == '0')) ∧
    (∀ a : Address, a.column < 2 ^ 64 - 1 → a.row < 2 ^ 64 - 1 → parse? a.name = some a) ∧
    (∀ column column', Column.letters column = Column.letters column' → column = column') ∧
    (∀ text, parse? text = readName? text) ∧
    ∀ column, Column.letters column = Column.lettersFrom (column + 1) [] := by
  refine ⟨fun text => ⟨fun h => ?_, ?_⟩, fun text a h => ?_, fun a hcolumn hrow => ?_,
    fun _ _ => Column.letters_injective, parse?_eq_readName?, fun column => ?_⟩
  · obtain ⟨a, ha⟩ := Option.isSome_iff_exists.mp h
    obtain ⟨letters, digits, hsplits, hcolumn, hcolumn', hrow, hrow'⟩ := parse?_eq_some_iff.mp ha
    rw [bound_eq] at hcolumn' hrow'
    exact ⟨letters, digits, hsplits, by omega, by omega, by omega⟩
  · rintro ⟨letters, digits, hsplits, hcolumn, hrow, hrow'⟩
    have hpos := hsplits.column_pos
    let a : Address :=
      ⟨positional 10 digitValue digits - 1, positional 26 Column.digit letters - 1⟩
    refine Option.isSome_iff_exists.mpr
      ⟨a, parse?_eq_some_iff.mpr ⟨letters, digits, hsplits, ?_⟩⟩
    rw [bound_eq]
    dsimp only [a]
    omega
  · obtain ⟨letters, digits, hsplits, hcolumn, _, hrow, _⟩ := parse?_eq_some_iff.mp h
    exact ⟨letters, digits, hsplits, hcolumn, hrow, hsplits.name_eq hcolumn hrow⟩
  · exact parse?_name (by rw [bound_eq]; omega) (by rw [bound_eq]; omega)
  · rw [Column.lettersFrom_succ, List.append_nil]

/-- A name with a zero in front of its row, and the last row and column that fit in a word. -/
theorem parse?_inverts_name_last :
    (∃ letters digits, Splits "AB012" letters digits ∧
      (⟨11, 27⟩ : Address).name.toList = letters ++ digits.dropWhile (· == '0')) ∧
    parse? (Address.name ⟨2 ^ 64 - 2, 2 ^ 64 - 2⟩) = some ⟨2 ^ 64 - 2, 2 ^ 64 - 2⟩ := by
  obtain ⟨_, hname, hparse, _⟩ := parse?_inverts_name
  have hzero : parse? "AB012" = some ⟨11, 27⟩ := by decide
  obtain ⟨letters, digits, hsplits, _, _, hdisplay⟩ := hname _ _ hzero
  exact ⟨⟨letters, digits, hsplits, hdisplay⟩, hparse _ (by decide) (by decide)⟩

end Address

end Spreadsheet
