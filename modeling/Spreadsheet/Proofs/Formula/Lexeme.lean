import Spreadsheet.Proofs.Formula.Mention

/-!
# How tokens are written

A token is written by its spelling, a number by a literal that denotes it: a numeral, perhaps with
a minus sign in front. The scanner reads every token off the head of the text as it is written,
and a well-formed numeral in front of a character that cannot go on with it is scanned whole.
-/

namespace Spreadsheet

/-- The characters of names, words and unsigned numerals without a signed exponent. -/
def isWordChar (c : Char) : Bool := c.isAlphanum || c == '.'

theorem isWordChar_of_isDigit {c : Char} (h : c.isDigit = true) : isWordChar c = true := by
  simp [isWordChar, Char.isAlphanum, h]

theorem isWordChar_of_isAlpha {c : Char} (h : c.isAlpha = true) : isWordChar c = true := by
  simp [isWordChar, Char.isAlphanum, h]

theorem isWordChar_of_isUpper {c : Char} (h : c.isUpper = true) : isWordChar c = true :=
  isWordChar_of_isAlpha (isAlpha_iff.mpr (.inl h))

/-- The characters of words by their numbers. -/
theorem toNat_of_isWordChar {c : Char} (h : isWordChar c = true) :
    (65 ≤ c.toNat ∧ c.toNat ≤ 90) ∨ (97 ≤ c.toNat ∧ c.toNat ≤ 122) ∨
      (48 ≤ c.toNat ∧ c.toNat ≤ 57) ∨ c.toNat = 46 := by
  simp only [isWordChar, Char.isAlphanum, Bool.or_eq_true, isAlpha_iff, isUpper_iff, isLower_iff,
    isDigit_iff, beq_iff_eq] at h
  rcases h with h | rfl
  · omega
  · decide

/-- What is left behind a run of characters of a class begins outside the class. -/
theorem of_mem_head?_dropWhile {p : Char → Bool} {text : List Char} {c : Char}
    (h : c ∈ (text.dropWhile p).head?) : p c = false := by
  have hhead := List.head?_dropWhile_not p text
  rwa [Option.mem_def.mp h] at hhead

/-- A run of characters of a class is taken whole if the next character is outside the class. -/
theorem takeWhile_dropWhile_append {p : Char → Bool} {u left : List Char} (hu : u.all p = true)
    (hleft : ∀ c ∈ left.head?, p c = false) :
    (u ++ left).takeWhile p = u ∧ (u ++ left).dropWhile p = left := by
  have hall := List.all_eq_true.mp hu
  have hnone : left.takeWhile p = [] ∧ left.dropWhile p = left := by
    cases left with
    | nil => exact ⟨rfl, rfl⟩
    | cons c left =>
      have hc : ¬ p c = true := by simp [hleft c rfl]
      exact ⟨List.takeWhile_cons_of_neg hc, List.dropWhile_cons_of_neg hc⟩
  rw [List.takeWhile_append_of_pos hall, List.dropWhile_append_of_pos hall, hnone.1, hnone.2,
    List.append_nil]
  exact ⟨rfl, rfl⟩

namespace Numeral

variable {n : Numeral} {cs left digits : List Char}

/-- An exponent has one of two marks, perhaps a sign, and digits. -/
structure Exponent.WellFormed (e : Exponent) : Prop where
  /-- The mark is one of two. -/
  mark : e.mark = 'e' ∨ e.mark = 'E'
  /-- A sign is one of two. -/
  sign : ∀ c ∈ e.sign, c = '+' ∨ c = '-'
  /-- There is a digit. -/
  digits_ne_nil : e.digits ≠ []
  /-- There are only digits after the sign. -/
  digits : e.digits.all Char.isDigit = true

/-- A numeral has a digit before or after its point, and nothing but digits there. -/
structure WellFormed (n : Numeral) : Prop where
  /-- Before the point there are only digits. -/
  whole : n.whole.all Char.isDigit = true
  /-- After the point there are only digits. -/
  fraction : (n.fraction.getD []).all Char.isDigit = true
  /-- There is a digit. -/
  digit : n.whole ≠ [] ∨ n.fraction.getD [] ≠ []
  /-- An exponent is well-formed. -/
  exponent : ∀ e ∈ n.exponent, e.WellFormed

theorem digits_of_scanFraction (cs : List Char) :
    ((scanFraction cs).1.getD []).all Char.isDigit = true := by
  unfold scanFraction
  split
  · exact List.all_takeWhile
  · rfl

/-- What is scanned as a numeral is one. -/
theorem wellFormed_of_scan (h : scan cs = some (n, left)) : n.WellFormed := by
  have hexponent : ∀ e ∈ n.exponent, e.WellFormed := by
    intro e he
    obtain ⟨cs', hscan⟩ := exponent_of_scan h he
    obtain ⟨hmark, hsign, hne, hdigits, _⟩ := Exponent.of_scan hscan
    exact ⟨hmark, hsign, hne, hdigits⟩
  have hparts : n.whole = (takeDigits cs).1 ∧ n.fraction = (scanFraction (takeDigits cs).2).1 ∧
      (n.whole ≠ [] ∨ n.fraction.getD [] ≠ []) := by
    simp only [scan] at h
    split at h
    · cases h
    · rename_i hdigit
      split at h <;>
        · obtain ⟨rfl, rfl⟩ := Prod.mk.inj (Option.some.inj h)
          exact ⟨rfl, rfl, not_and_or.mp hdigit⟩
  obtain ⟨hwhole, hfraction, hdigit⟩ := hparts
  refine ⟨?_, ?_, hdigit, hexponent⟩
  · rw [hwhole]
    exact List.all_takeWhile
  · rw [hfraction]
    exact digits_of_scanFraction _

/-- A character that cannot go on with a numeral. -/
def Stops (c : Char) : Prop := c.isDigit = false ∧ c ≠ '.' ∧ c ≠ 'e' ∧ c ≠ 'E'

/-- Digits are taken up to where they end. -/
theorem takeDigits_append_of_digits (hdigits : digits.all Char.isDigit = true)
    (hleft : ∀ c ∈ left.head?, c.isDigit = false) :
    takeDigits (digits ++ left) = (digits, left) := by
  obtain ⟨htake, hdrop⟩ := takeWhile_dropWhile_append hdigits hleft
  rw [takeDigits, htake, hdrop]

/-- A well-formed exponent is found where no digit follows it. -/
theorem Exponent.scan_text_append {e : Exponent} (h : e.WellFormed)
    (hleft : ∀ c ∈ left.head?, c.isDigit = false) :
    Exponent.scan (e.text ++ left) = some (e, left) := by
  obtain ⟨mark, sign, digits⟩ := e
  have hdigits := takeDigits_append_of_digits h.digits hleft
  cases sign with
  | some c =>
    simp only [Exponent.scan, Exponent.text, Option.toList_some, List.cons_append,
      List.nil_append, if_pos h.mark, if_pos (h.sign c rfl), hdigits, if_neg h.digits_ne_nil]
  | none =>
    -- The first digit is no sign.
    obtain ⟨d, digits, rfl⟩ := List.exists_cons_of_ne_nil h.digits_ne_nil
    have hd : ¬ (d = '+' ∨ d = '-') := by
      have hdigit := (List.all_eq_true.mp h.digits) d List.mem_cons_self
      rintro (rfl | rfl) <;> cases hdigit
    simp only [List.cons_append] at hdigits
    simp only [Exponent.scan, Exponent.text, Option.toList_none, List.nil_append,
      List.cons_append, if_pos h.mark, if_neg hd, hdigits, if_neg h.digits_ne_nil]

/-- Without its mark there is no exponent. -/
theorem Exponent.scan_eq_none (hleft : ∀ c ∈ left.head?, c ≠ 'e' ∧ c ≠ 'E') :
    Exponent.scan left = none := by
  cases left with
  | nil => rfl
  | cons c left =>
    have hc : ¬ (c = 'e' ∨ c = 'E') := by simpa using hleft c rfl
    simp only [Exponent.scan, if_neg hc]

/-- Without a point there is no fraction. -/
theorem scanFraction_of_ne (h : ∀ c ∈ left.head?, c ≠ '.') : scanFraction left = (none, left) := by
  unfold scanFraction
  split
  · exact absurd rfl (h '.' rfl)
  · rfl

/-- A well-formed numeral is scanned whole if the next character cannot go on with it. -/
theorem scan_text_append (h : n.WellFormed) (hleft : ∀ c ∈ left.head?, Stops c) :
    scan (n.text ++ left) = some (n, left) := by
  obtain ⟨whole, fraction, exponent⟩ := n
  let tail : List Char := (exponent.map Exponent.text).getD [] ++ left
  -- Neither the mark of an exponent nor what follows the numeral goes on with its digits.
  have htail : ∀ c ∈ tail.head?, c.isDigit = false ∧ c ≠ '.' := by
    intro c hc
    cases exponent with
    | none => exact ⟨(hleft c hc).1, (hleft c hc).2.1⟩
    | some e =>
      obtain rfl : e.mark = c := Option.some.inj hc
      rcases (h.exponent e rfl).mark with hmark | hmark <;> rw [hmark] <;> decide
  have hexponent : Exponent.scan tail = exponent.map (·, left) := by
    cases exponent with
    | none => exact Exponent.scan_eq_none fun c hc => (hleft c hc).2.2
    | some e => exact Exponent.scan_text_append (h.exponent e rfl) fun c hc => (hleft c hc).1
  have hnonempty : ¬ (whole = [] ∧ fraction.getD [] = []) := not_and_or.mpr h.digit
  have hsplit : text ⟨whole, fraction, exponent⟩ ++ left =
      whole ++ ((fraction.map ('.' :: ·)).getD [] ++ tail) := by
    simp only [text, tail, List.append_assoc]
  rw [hsplit]
  cases fraction with
  | none =>
    have hwhole := takeDigits_append_of_digits h.whole fun c hc => (htail c hc).1
    have hfraction : scanFraction tail = (none, tail) :=
      scanFraction_of_ne fun c hc => (htail c hc).2
    simp only [Option.map_none, Option.getD_none, List.nil_append, scan, hwhole, hfraction] at *
    rw [if_neg hnonempty, hexponent]
    cases exponent <;> rfl
  | some ds =>
    have hwhole : takeDigits (whole ++ ('.' :: (ds ++ tail))) = (whole, '.' :: (ds ++ tail)) := by
      refine takeDigits_append_of_digits h.whole fun c hc => ?_
      obtain rfl : '.' = c := Option.some.inj hc
      rfl
    have hfraction : scanFraction ('.' :: (ds ++ tail)) = (some ds, tail) := by
      have hdigits : takeDigits (ds ++ tail) = (ds, tail) :=
        takeDigits_append_of_digits h.fraction fun c hc => (htail c hc).1
      rw [scanFraction, hdigits]
    simp only [Option.map_some, Option.getD_some, List.cons_append, scan, hwhole, hfraction] at *
    rw [if_neg hnonempty, hexponent]
    cases exponent <;> rfl

namespace WellFormed

theorem scan_text (h : n.WellFormed) : scan n.text = some (n, []) := by
  have hscan : scan (n.text ++ []) = some (n, []) := scan_text_append h (by simp)
  rwa [List.append_nil] at hscan

theorem mantissa_ne_nil (h : n.WellFormed) : n.mantissa ≠ [] := (mantissa_of_scan h.scan_text).1

theorem isWordChar_of_mem_mantissa (h : n.WellFormed) {c : Char} (hc : c ∈ n.mantissa) :
    isWordChar c = true := by
  rcases (mantissa_of_scan h.scan_text).2 c hc with hdigit | rfl
  · exact isWordChar_of_isDigit hdigit
  · rfl

/-- A numeral begins with a digit or a point. -/
theorem isWordChar_of_mem_head? (h : n.WellFormed) {c : Char} (hc : c ∈ n.text.head?) :
    isWordChar c = true := by
  obtain ⟨d, ds, hmantissa⟩ := List.exists_cons_of_ne_nil h.mantissa_ne_nil
  rw [text_eq, hmantissa] at hc
  obtain rfl : d = c := Option.some.inj hc
  exact h.isWordChar_of_mem_mantissa (by simp [hmantissa])

/-- A numeral begins with no sign. -/
theorem exists_cons (h : n.WellFormed) : ∃ c u, n.text = c :: u ∧ c ≠ '-' ∧ c ≠ '+' := by
  obtain ⟨c, u, hu⟩ := List.exists_cons_of_ne_nil (text_ne_nil_of_scan h.scan_text)
  have hword : isWordChar c = true := h.isWordChar_of_mem_head? (by rw [hu]; rfl)
  refine ⟨c, u, hu, ?_, ?_⟩ <;>
    · rintro rfl
      cases hword

end WellFormed

end Numeral

namespace Formula

/-- A number as a formula writes it. -/
structure Literal where
  /-- Whether a minus sign stands in front. -/
  negative : Bool
  /-- The numeral without the sign. -/
  numeral : Numeral
  deriving DecidableEq, Repr

namespace Literal

/-- The characters of a literal. -/
def text (l : Literal) : List Char :=
  if l.negative then '-' :: l.numeral.text else l.numeral.text

/-- A literal is well-formed and has a number as its value. -/
structure Denotes (l : Literal) (x : Float) : Prop where
  /-- The numeral is well-formed. -/
  wellFormed : l.numeral.WellFormed
  /-- The number is its value, with the sign. -/
  value : l.numeral.value? l.negative = some x

end Literal

/-- Capital letters with digits after them. -/
def IsName (name : String) : Prop :=
  ∃ letters digits, name.toList = letters ++ digits ∧ letters ≠ [] ∧
    letters.all Char.isUpper = true ∧ digits ≠ [] ∧ digits.all Char.isDigit = true

theorem isName_ofList {letters digits : List Char} (hletters : letters ≠ [])
    (hupper : letters.all Char.isUpper = true) (hdigits : digits ≠ [])
    (hdigit : digits.all Char.isDigit = true) : IsName (String.ofList (letters ++ digits)) :=
  ⟨letters, digits, String.toList_ofList, hletters, hupper, hdigits, hdigit⟩

theorem IsName.isWordChar {name : String} (h : IsName name) {c : Char} (hc : c ∈ name.toList) :
    isWordChar c = true := by
  obtain ⟨letters, digits, hname, _, hupper, _, hdigit⟩ := h
  rw [hname] at hc
  rcases List.mem_append.mp hc with hc | hc
  · exact isWordChar_of_isUpper (List.all_eq_true.mp hupper c hc)
  · exact isWordChar_of_isDigit (List.all_eq_true.mp hdigit c hc)

theorem IsName.toList_ne_nil {name : String} (h : IsName name) : name.toList ≠ [] := by
  obtain ⟨letters, digits, hname, hletters, _⟩ := h
  rw [hname]
  exact List.append_ne_nil_of_left_ne_nil hletters digits

/-- A name begins with a letter. -/
theorem IsName.exists_cons {name : String} (h : IsName name) :
    ∃ c cs, name.toList = c :: cs ∧ c.isAlpha = true := by
  obtain ⟨letters, digits, hname, hletters, hupper, _⟩ := h
  obtain ⟨c, cs, rfl⟩ := List.exists_cons_of_ne_nil hletters
  have hc : c.isUpper = true := List.all_eq_true.mp hupper c List.mem_cons_self
  exact ⟨c, cs ++ digits, hname, isAlpha_iff.mpr (.inl hc)⟩

namespace Token

/-- A token as it is written. -/
inductive Written : Token → List Char → Prop where
  | number {l : Literal} {x : Float} (h : l.Denotes x) : Written (.number x) l.text
  | cell {name : String} (h : IsName name) : Written (.cell name) name.toList
  | operator (op : Operator) : Written (.operator op) op.spelling.toList
  | unary (f : Unary) : Written (.unary f) f.spelling.toList
  | leftParen : Written .leftParen ['(']
  | rightParen : Written .rightParen [')']

variable {size : Nat} {operand spaced negative : Bool} {c : Char} {rest left text u : List Char}
  {t : Token}

/-- A sign that is found is written at the head of the text, and is no minus. -/
theorem exists_written_of_sign? (h : sign? c rest = some (t, left)) :
    ∃ u, c :: rest = u ++ left ∧ t.Written u ∧ u.head? ≠ some '-' := by
  unfold sign? at h
  split at h <;> simp only [Option.some.injEq, Prod.mk.injEq, reduceCtorEq] at h <;>
    obtain ⟨rfl, rfl⟩ := h
  case h_1 => exact ⟨['+'], rfl, .operator (.sum .add), by decide⟩
  case h_2 => exact ⟨['*'], rfl, .operator (.product .multiply), by decide⟩
  case h_3 => exact ⟨['/'], rfl, .operator (.product .divide), by decide⟩
  case h_4 => exact ⟨['('], rfl, .leftParen, by decide⟩
  case h_5 => exact ⟨[')'], rfl, .rightParen, by decide⟩
  case h_6 => exact ⟨['='], rfl, .operator (.comparison .equal), by decide⟩
  case h_7 => exact ⟨['<', '='], rfl, .operator (.comparison .lessEqual), by decide⟩
  case h_8 => exact ⟨['<', '>'], rfl, .operator (.comparison .notEqual), by decide⟩
  case h_9 => exact ⟨['<'], rfl, .operator (.comparison .less), by decide⟩
  case h_10 => exact ⟨['>', '='], rfl, .operator (.comparison .greaterEqual), by decide⟩
  case h_11 => exact ⟨['>'], rfl, .operator (.comparison .greater), by decide⟩

/-- A number that is found is denoted by the literal at the head of the text. -/
theorem exists_literal_of_number? (h : number? negative text = some (.ok (t, left))) :
    ∃ (l : Literal) (x : Float), l.negative = negative ∧ t = .number x ∧ l.Denotes x ∧
      text = l.numeral.text ++ left := by
  simp only [number?, Option.map_eq_some_iff] at h
  obtain ⟨⟨n, rest⟩, hs, hn⟩ := h
  simp only at hn
  split at hn
  · rename_i x hx
    obtain ⟨rfl, rfl⟩ := Prod.mk.inj (Except.ok.inj hn)
    exact ⟨⟨negative, n⟩, x, rfl, rfl, ⟨Numeral.wellFormed_of_scan hs, hx⟩,
      (Numeral.text_append_of_scan hs).symm⟩
  · cases hn

/-- A word that is found is written at the head of the text. -/
theorem exists_written_of_word (hc : c.isAlpha = true)
    (h : word spaced (c :: rest) = .ok (t, left)) :
    ∃ u, c :: rest = u ++ left ∧ t.Written u := by
  have htext : (c :: rest).takeWhile Char.isAlpha ++ (c :: rest).dropWhile Char.isAlpha =
      c :: rest := List.takeWhile_append_dropWhile
  have hletters : (c :: rest).takeWhile Char.isAlpha ≠ [] := by
    rw [List.takeWhile_cons_of_pos hc]
    exact List.cons_ne_nil _ _
  simp only [word] at h
  generalize (c :: rest).takeWhile Char.isAlpha = letters at h htext hletters
  generalize (c :: rest).dropWhile Char.isAlpha = after at h htext
  split at h
  · rename_i hname
    obtain ⟨rfl, rfl⟩ := Prod.mk.inj (Except.ok.inj h)
    refine ⟨letters ++ after.takeWhile Char.isDigit, ?_, ?_⟩
    · rw [List.append_assoc, List.takeWhile_append_dropWhile, htext]
    · have hwritten := Written.cell (isName_ofList hletters hname.1 hname.2 List.all_takeWhile)
      rwa [String.toList_ofList] at hwritten
  · simp only [wordOperator, functionName] at h
    split at h
    · rename_i hword
      split at h <;> cases h
      exact ⟨letters, htext.symm, hword ▸ .operator (.product .remainder)⟩
    · split at h
      · rename_i hword
        split at h <;> cases h
        exact ⟨letters, htext.symm, hword ▸ .operator (.product .quotient)⟩
      · split at h
        · rename_i hword
          split at h <;> cases h
          exact ⟨letters, htext.symm, hword ▸ .unary .increment⟩
        · split at h
          · rename_i hword
            split at h <;> cases h
            exact ⟨letters, htext.symm, hword ▸ .unary .decrement⟩
          · cases h

/-- A token is read as it is written. If a minus sign begins it, it is the sign of a difference, or
it stands where an operand is due. -/
theorem exists_written_of_lexeme (h : lexeme size operand spaced c rest = .ok (t, left)) :
    ∃ u, c :: rest = u ++ left ∧ t.Written u ∧
      (u.head? = some '-' → t = .operator (.sum .subtract) ∨ operand = true) := by
  unfold lexeme at h
  split at h
  · rename_i found hsign
    cases h
    obtain ⟨u, htext, hwritten, hhead⟩ := exists_written_of_sign? hsign
    exact ⟨u, htext, hwritten, fun hminus => absurd hminus hhead⟩
  · split at h
    · rename_i hminus
      subst hminus
      split at h
      · rename_i result hnumber
        subst h
        split at hnumber
        · rename_i hoperand
          obtain ⟨l, x, hneg, rfl, hl, rfl⟩ := exists_literal_of_number? hnumber
          refine ⟨l.text, ?_, .number hl, fun _ => .inr hoperand⟩
          rw [Literal.text, if_pos hneg, List.cons_append]
        · cases hnumber
      · cases h
        exact ⟨['-'], rfl, .operator (.sum .subtract), fun _ => .inl rfl⟩
    · rename_i hminus
      have hhead : ∀ u, c :: rest = u ++ left → u.head? = some '-' →
          t = .operator (.sum .subtract) ∨ operand = true := by
        rintro (_ | ⟨d, u⟩) htext hd
        · cases hd
        · obtain rfl : d = '-' := Option.some.inj hd
          exact absurd (List.cons.inj htext).1 hminus
      split at h
      · rename_i result hnumber
        subst h
        obtain ⟨l, x, hneg, rfl, hl, htext⟩ := exists_literal_of_number? hnumber
        have hl' : l.text = l.numeral.text := by rw [Literal.text, hneg, if_neg Bool.false_ne_true]
        rw [← hl'] at htext
        exact ⟨l.text, htext, .number hl, hhead _ htext⟩
      · split at h
        · rename_i halpha
          obtain ⟨u, htext, hwritten⟩ := exists_written_of_word halpha h
          exact ⟨u, htext, hwritten, hhead u htext⟩
        · cases h

end Token

end Formula

end Spreadsheet
