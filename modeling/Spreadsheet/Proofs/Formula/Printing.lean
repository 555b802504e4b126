import Spreadsheet.Proofs.Formula.Check
import Spreadsheet.Proofs.Formula.Grammar

/-!
# Printing a tree and reading it back

A tree is printed with no more parentheses than its shape needs: around an operand that binds
more loosely than its place allows, and around a negative literal. Numbers may be written by any
literals that denote them. The text that is printed passes the check of shape and is read back as
the same tree, and no text that is read as the tree has fewer parentheses, those around negative
literals apart.

What is printed for a tree is scanned into a phrase of its place wherever it stands in front of a
character that goes on with no word. Every piece is judged with its actual rest behind it, so that
the longest token at each place is the one that was printed. That is proved along the tree,
together with the ends of the text and its spaces; what the parser and the check make of the whole
follows from the grammar and from what is known about formulas that can be read.
-/

namespace Spreadsheet.Formula

/-- How loosely a tier binds. -/
def Tier.looseness : Tier → Nat
  | .operand => 0
  | .product => 1
  | .sum => 2
  | .comparison => 3

theorem Tier.looseness_le_comparison (t : Tier) : t.looseness ≤ Tier.comparison.looseness := by
  cases t <;> decide

namespace Operator

/-- The tier of the phrases that an operator makes. -/
def tier : Operator → Tier
  | .product _ => .product
  | .sum _ => .sum
  | .comparison _ => .comparison

/-- The loosest tier to the left of an operator: sums and products group to the left, and there is
one comparison at a level. -/
def leftTier : Operator → Tier
  | .product _ => .product
  | .sum _ => .sum
  | .comparison _ => .sum

/-- The loosest tier to the right of an operator. -/
def rightTier : Operator → Tier
  | .product _ => .operand
  | .sum _ => .product
  | .comparison _ => .sum

/-- An operator as it is printed: a word has a space on each side, a sign has none. -/
def print : Operator → List Char
  | .product .quotient => [' ', 'd', 'i', 'v', ' ']
  | .product .remainder => [' ', 'm', 'o', 'd', ' ']
  | op => op.spelling.toList

end Operator

/-- A text in parentheses. -/
def inParens (text : List Char) : List Char := '(' :: (text ++ [')'])

namespace Expr

/-- The numbers in a tree, from left to right, with repetitions. -/
def numbers : Expr → List Float
  | .number value => [value]
  | .cell _ => []
  | .call _ argument => argument.numbers
  | .binary _ left right => left.numbers ++ right.numbers

/-- A tree as it is printed at a place for phrases of a tier. -/
def print (write : Float → Literal) : Tier → Expr → List Char
  | _, .number value =>
    if (write value).negative then inParens (write value).text else (write value).text
  | _, .cell name => name.toList
  | _, .call f argument => f.spelling.toList ++ inParens (argument.print write .comparison)
  | place, .binary op left right =>
    let text := left.print write op.leftTier ++ (op.print ++ right.print write op.rightTier)
    if op.tier.looseness ≤ place.looseness then text else inParens text

end Expr

variable {place : Tier} {tokens lefts rights : List Token} {e left right : Expr}

/-- A phrase of a tier may stand where a looser one may. -/
theorem Phrase.mono (h : Phrase place tokens e) {looser : Tier}
    (hle : place.looseness ≤ looser.looseness) : Phrase looser tokens e := by
  cases place <;> cases looser <;> simp only [Tier.looseness] at hle
  case operand.operand | product.product | sum.sum | comparison.comparison => exact h
  case operand.product => exact .ofOperand h
  case operand.sum => exact .ofProduct (.ofOperand h)
  case operand.comparison => exact .ofSum (.ofProduct (.ofOperand h))
  case product.sum => exact .ofProduct h
  case product.comparison => exact .ofSum (.ofProduct h)
  case sum.comparison => exact .ofSum h
  all_goals omega

/-- Two phrases with an operator between them. -/
theorem Phrase.binary (op : Operator) (hl : Phrase op.leftTier lefts left)
    (hr : Phrase op.rightTier rights right) :
    Phrase op.tier (lefts ++ .operator op :: rights) (.binary op left right) := by
  cases op with
  | product op => exact .product op hl hr
  | sum op => exact .sum op hl hr
  | comparison op => exact .comparison op hl hr

namespace Expr

/-- How many parentheses a tree needs at a place. -/
def parens : Tier → Expr → Nat
  | _, .number _ => 0
  | _, .cell _ => 0
  | _, .call _ argument => argument.parens .comparison + 1
  | place, .binary op left right =>
    left.parens op.leftTier + right.parens op.rightTier +
      if op.tier.looseness ≤ place.looseness then 0 else 1

/-- A looser place takes no more parentheses. -/
theorem parens_mono (e : Expr) {looser : Tier} (hle : place.looseness ≤ looser.looseness) :
    e.parens looser ≤ e.parens place := by
  cases e with
  | number | cell | call => exact Nat.le_refl _
  | binary op left right =>
    simp only [parens]
    split <;> split <;> omega

/-- A tighter place takes one pair of parentheses more at most. -/
theorem parens_le_succ (e : Expr) (place place' : Tier) : e.parens place ≤ e.parens place' + 1 := by
  cases e with
  | number | cell | call => exact Nat.le_succ _
  | binary op left right =>
    simp only [parens]
    split <;> split <;> omega

end Expr

theorem Token.count_operator (op : Operator) :
    (lefts ++ .operator op :: rights).count .leftParen =
      lefts.count .leftParen + rights.count .leftParen := by
  rw [List.count_append, List.count_cons_of_ne (by simp)]

theorem Token.count_group :
    (.leftParen :: (tokens ++ [.rightParen])).count Token.leftParen =
      tokens.count .leftParen + 1 := by
  rw [List.count_cons_self, List.count_append, List.count_singleton]
  rfl

/-- A phrase has the parentheses that its tree needs. -/
theorem Phrase.parens_le (h : Phrase place tokens e) :
    e.parens place ≤ tokens.count .leftParen := by
  induction h with
  | number value => exact Nat.zero_le _
  | cell name => exact Nat.zero_le _
  | @group tokens e inside ih =>
    rw [Token.count_group]
    exact (e.parens_le_succ .operand .comparison).trans (Nat.succ_le_succ ih)
  | call f argument ih =>
    rw [List.count_cons_of_ne (by simp), Token.count_group]
    exact Nat.succ_le_succ ih
  | ofOperand h ih => exact (Expr.parens_mono _ (by decide)).trans ih
  | ofProduct h ih => exact (Expr.parens_mono _ (by decide)).trans ih
  | ofSum h ih => exact (Expr.parens_mono _ (by decide)).trans ih
  | product op hl hr ihl ihr | sum op hl hr ihl ihr | comparison op hl hr ihl ihr =>
    -- The place is the operator's own, so the whole needs no further parentheses.
    rw [Token.count_operator]
    have hboth := Nat.add_le_add ihl ihr
    exact hboth

namespace Token

variable {size : Nat} {operand spaced : Bool} {c : Char} {t : Token} {text u rest left : List Char}

/-- A text does not go on with a word. -/
def Delimited (rest : List Char) : Prop := ∀ c ∈ rest.head?, isWordChar c = false

/-- Where a word ends a numeral ends too. -/
theorem Delimited.stops (h : Delimited rest) : ∀ c ∈ rest.head?, Numeral.Stops c := by
  intro c hc
  have hword := h c hc
  refine ⟨?_, ?_, ?_, ?_⟩
  · by_contra hdigit
    rw [isWordChar_of_isDigit (Bool.not_eq_false _ ▸ hdigit)] at hword
    cases hword
  all_goals
    · rintro rfl
      cases hword

theorem not_isSpace_of_isWordChar (hc : isWordChar c = true) : isSpace c = false := by
  by_contra hspace
  have hblank := isBlank_of_isSpace (Bool.not_eq_false _ ▸ hspace)
  rw [not_isBlank_of_isWordChar hc] at hblank
  cases hblank

/-- A token that is found comes first, and the scan goes on behind it. -/
theorem scanFrom_cons (hc : isSpace c = false)
    (h : lexeme size operand spaced c text = .ok (t, left)) :
    scanFrom size operand spaced (c :: text) =
      (scanFrom size t.opensOperand false left).map (t :: ·) := by
  rw [scanFrom, hc, if_neg Bool.false_ne_true]
  split
  · rename_i fault hfault
    rw [h] at hfault
    cases hfault
  · rename_i t' left' hok
    rw [h] at hok
    cases hok
    rfl

/-- At a character of words there is a number, a word, or a fault. -/
theorem lexeme_of_isWordChar (hc : isWordChar c = true) :
    lexeme size operand spaced c rest =
      match number? false (c :: rest) with
      | some result => result
      | none =>
        if c.isAlpha then word spaced (c :: rest)
        else .error (.unexpectedChar (size - byteSize (c :: rest)) c) := by
  have hsign : sign? c rest = none := by
    unfold sign?
    split
    case h_12 => rfl
    all_goals cases hc
  have hminus : c ≠ '-' := by
    rintro rfl
    cases hc
  rw [lexeme, hsign]
  exact if_neg hminus

theorem not_isDigit_of_isAlpha (hc : c.isAlpha = true) : c.isDigit = false := by
  refine Bool.eq_false_iff.mpr fun hdigit => ?_
  rw [isDigit_iff] at hdigit
  rw [isAlpha_iff, isUpper_iff, isLower_iff] at hc
  omega

theorem number?_of_isAlpha (hc : c.isAlpha = true) : number? false (c :: rest) = none := by
  have hdigit := not_isDigit_of_isAlpha hc
  have hpoint : c ≠ '.' := by
    rintro rfl
    cases hc
  have hwhole : Numeral.takeDigits (c :: rest) = ([], c :: rest) := by
    rw [Numeral.takeDigits, List.takeWhile_cons_of_neg (by simp [hdigit]),
      List.dropWhile_cons_of_neg (by simp [hdigit])]
  have hfraction : Numeral.scanFraction (c :: rest) = (none, c :: rest) :=
    Numeral.scanFraction_of_ne fun d hd => by
      obtain rfl : c = d := Option.some.inj hd
      exact hpoint
  rw [number?, Numeral.scan, hwhole]
  simp only [hfraction]
  rfl

/-- A minus begins a number where an operand may start, and is an operator otherwise. -/
theorem lexeme_minus :
    lexeme size operand spaced '-' rest =
      match if operand then number? true rest else none with
      | some result => result
      | none => .ok (.operator (.sum .subtract), rest) := rfl

/-- A number in front of a text that does not go on with a word. -/
theorem number?_append {n : Numeral} {negative : Bool} {x : Float} (hn : n.WellFormed)
    (hx : n.value? negative = some x) (hrest : Delimited rest) :
    number? negative (n.text ++ rest) = some (.ok (.number x, rest)) := by
  rw [number?, Numeral.scan_text_append hn hrest.stops, Option.map_some]
  simp only [hx]

/-- A numeral is scanned as its number. -/
theorem scanFrom_numeral {n : Numeral} {x : Float} (hn : n.WellFormed)
    (hx : n.value? false = some x) (hrest : Delimited rest) :
    scanFrom size operand spaced (n.text ++ rest) =
      (scanFrom size false false rest).map (.number x :: ·) := by
  have hnumber := number?_append hn hx hrest
  obtain ⟨c, cs, htext⟩ := List.exists_cons_of_ne_nil (Wordlike.numeral hn).ne_nil
  have hc : isWordChar c = true := hn.isWordChar_of_mem_head? (by rw [htext]; rfl)
  rw [htext, List.cons_append] at hnumber ⊢
  refine scanFrom_cons (not_isSpace_of_isWordChar hc) ?_
  rw [lexeme_of_isWordChar hc, hnumber]

/-- A word in front of a text. -/
theorem scanFrom_word (hc : c.isAlpha = true) (hword : word spaced (c :: text) = .ok (t, left)) :
    scanFrom size operand spaced (c :: text) =
      (scanFrom size t.opensOperand false left).map (t :: ·) := by
  have hc' := isWordChar_of_isAlpha hc
  refine scanFrom_cons (not_isSpace_of_isWordChar hc') ?_
  rw [lexeme_of_isWordChar hc', number?_of_isAlpha hc, hword]
  exact if_pos hc

theorem word_name {name : String} (h : IsName name) (hrest : Delimited rest) :
    word spaced (name.toList ++ rest) = .ok (.cell name, rest) := by
  obtain ⟨letters, digits, hname, _, hupper, hdigits, hdigit⟩ := h
  have halpha : letters.all Char.isAlpha = true := List.all_eq_true.mpr fun c hc =>
    isAlpha_iff.mpr (.inl (List.all_eq_true.mp hupper c hc))
  have hafter : ∀ c ∈ (digits ++ rest).head?, c.isAlpha = false := by
    intro c hc
    rw [List.head?_append_of_ne_nil digits hdigits] at hc
    by_contra hletter
    have hnone := not_isDigit_of_isAlpha (Bool.not_eq_false _ ▸ hletter)
    rw [List.all_eq_true.mp hdigit c (List.mem_of_head? hc)] at hnone
    cases hnone
  obtain ⟨htake, hdrop⟩ := takeWhile_dropWhile_append halpha hafter
  obtain ⟨htake', hdrop'⟩ := takeWhile_dropWhile_append hdigit fun c hc => (hrest.stops c hc).1
  rw [hname, List.append_assoc]
  simp only [word, htake, hdrop, htake', hdrop']
  rw [if_pos ⟨hupper, hdigits⟩, ← hname, String.ofList_toList]

/-- A word of letters is an operator, a function or unknown. -/
theorem word_letters (letters : List Char) (h : letters.all Char.isAlpha = true)
    (hupper : letters.all Char.isUpper = false) (hrest : ∀ c ∈ rest.head?, c.isAlpha = false) :
    word spaced (letters ++ rest) =
      if letters = ['m', 'o', 'd'] then wordOperator spaced .remainder rest
      else if letters = ['d', 'i', 'v'] then wordOperator spaced .quotient rest
      else if letters = ['i', 'n', 'c'] then functionName .increment rest
      else if letters = ['d', 'e', 'c'] then functionName .decrement rest
      else .error (.unknownWord (String.ofList letters)) := by
  obtain ⟨htake, hdrop⟩ := takeWhile_dropWhile_append h hrest
  simp only [word, htake, hdrop, hupper, Bool.false_eq_true, false_and, if_false]

/-- Wherever a text stands in front of one that does not go on with a word, it is scanned into
given tokens, and an operator is due behind them. -/
def ScansAs (text : List Char) (tokens : List Token) : Prop :=
  ∀ size operand spaced rest, Delimited rest →
    scanFrom size operand spaced (text ++ rest) =
      (scanFrom size false false rest).map (tokens ++ ·)

/-- The same for a text that stands in parentheses. -/
def ScansInside (text : List Char) (tokens : List Token) : Prop :=
  ∀ size rest, scanFrom size true false (text ++ ')' :: rest) =
    (scanFrom size false false (')' :: rest)).map (tokens ++ ·)

variable {tokens more : List Token}

theorem delimited_cons (hc : isWordChar c = false) : Delimited (c :: rest) := by
  intro d hd
  obtain rfl : c = d := Option.some.inj hd
  exact hc

theorem map_append_map (scanned : Except Fault (List Token)) :
    (scanned.map (more ++ ·)).map (tokens ++ ·) = scanned.map (tokens ++ more ++ ·) := by
  cases scanned <;> simp [Except.map]

theorem ScansAs.inside (h : ScansAs text tokens) : ScansInside text tokens :=
  fun size _ => h size true false _ (delimited_cons rfl)

/-- A numeral is scanned as its number wherever it stands. -/
theorem scansAs_numeral {n : Numeral} {x : Float} (hn : n.WellFormed)
    (hx : n.value? false = some x) : ScansAs n.text [.number x] :=
  fun _ _ _ _ hrest => scanFrom_numeral hn hx hrest

/-- Behind a parenthesis a minus sign is the sign of the number. -/
theorem scansInside_negative {n : Numeral} {x : Float} (hn : n.WellFormed)
    (hx : n.value? true = some x) : ScansInside ('-' :: n.text) [.number x] := by
  intro size rest
  have hclose : Delimited (')' :: rest) := delimited_cons rfl
  have hnumber : number? true (n.text ++ ')' :: rest) = some (.ok (.number x, ')' :: rest)) :=
    number?_append hn hx hclose
  have hlexeme : lexeme size true false '-' (n.text ++ ')' :: rest) =
      .ok (.number x, ')' :: rest) := by
    rw [lexeme_minus, if_pos rfl, hnumber]
  exact scanFrom_cons rfl hlexeme

theorem scansAs_name {name : String} (h : IsName name) : ScansAs name.toList [.cell name] := by
  intro size operand spaced rest hrest
  have hword : word spaced (name.toList ++ rest) = .ok (.cell name, rest) := word_name h hrest
  obtain ⟨c, cs, hname, hc⟩ := h.exists_cons
  rw [hname] at hword ⊢
  exact scanFrom_word hc hword

/-- A text in parentheses is scanned as what is inside them. -/
theorem scansAs_inParens (h : ScansInside text tokens) :
    ScansAs (inParens text) (.leftParen :: (tokens ++ [.rightParen])) := by
  intro size operand spaced rest _
  have hopen : scanFrom size operand spaced ('(' :: (text ++ ')' :: rest)) =
      (scanFrom size true false (text ++ ')' :: rest)).map ([.leftParen] ++ ·) :=
    scanFrom_cons rfl rfl
  have hclose : scanFrom size false false (')' :: rest) =
      (scanFrom size false false rest).map ([.rightParen] ++ ·) := scanFrom_cons rfl rfl
  have htext : inParens text ++ rest = '(' :: (text ++ ')' :: rest) := by simp [inParens]
  rw [htext, hopen, h, hclose, map_append_map, map_append_map]
  simp

/-- A call is scanned as its function and its argument. -/
theorem scansAs_call (f : Unary) (h : ScansInside text tokens) :
    ScansAs (f.spelling.toList ++ inParens text)
      (.unary f :: .leftParen :: (tokens ++ [.rightParen])) := by
  intro size operand spaced rest hrest
  have hword : word spaced (f.spelling.toList ++ (inParens text ++ rest)) =
      .ok (.unary f, inParens text ++ rest) := by
    cases f with
    | increment => exact word_letters _ rfl rfl (by simp [inParens])
    | decrement => exact word_letters _ rfl rfl (by simp [inParens])
  have hname : scanFrom size operand spaced (f.spelling.toList ++ (inParens text ++ rest)) =
      (scanFrom size false false (inParens text ++ rest)).map ([.unary f] ++ ·) := by
    cases f with
    | increment => exact scanFrom_word rfl hword
    | decrement => exact scanFrom_word rfl hword
  rw [List.append_assoc, hname, scansAs_inParens h size false false rest hrest, map_append_map]
  rfl

/-- A text begins with a character that an operand can begin with, a minus sign apart. -/
def BeginsOperand (text : List Char) : Prop :=
  ∃ c cs, text = c :: cs ∧ (isWordChar c = true ∨ c = '(')

theorem scanFrom_blank (hc : isSpace c = true) :
    scanFrom size operand spaced (c :: rest) = scanFrom size operand true rest := by
  rw [scanFrom, if_pos hc]

/-- A word operator between its spaces. -/
theorem scanFrom_wordOperator (letters : List Char) (hc : c.isAlpha = true)
    (hword : word true (c :: (letters ++ ' ' :: text)) = .ok (t, ' ' :: text)) :
    scanFrom size operand spaced (' ' :: c :: (letters ++ ' ' :: text)) =
      (scanFrom size t.opensOperand true text).map ([t] ++ ·) := by
  rw [scanFrom_blank rfl, scanFrom_word hc hword, scanFrom_blank rfl]
  rfl

/-- An operator that is printed between two operands is scanned as one. -/
theorem scanFrom_operator (size : Nat) (op : Operator) (h : BeginsOperand text) :
    ∃ operand spaced, scanFrom size false false (op.print ++ text) =
      (scanFrom size operand spaced text).map ([.operator op] ++ ·) := by
  obtain ⟨c, cs, rfl, hc⟩ := h
  -- What follows a sign of comparison makes no longer one of it.
  have hne : c ≠ '=' ∧ c ≠ '>' := by
    constructor <;>
      · rintro rfl
        exact absurd hc (by decide)
  have hspace : ∀ d ∈ (' ' :: c :: cs).head?, d.isAlpha = false := by
    intro d hd
    obtain rfl : ' ' = d := Option.some.inj hd
    rfl
  match op with
  | .sum .add | .sum .subtract | .product .multiply | .product .divide
  | .comparison .equal | .comparison .notEqual | .comparison .lessEqual
  | .comparison .greaterEqual => exact ⟨_, _, scanFrom_cons rfl rfl⟩
  | .product .quotient =>
    exact ⟨_, _, scanFrom_wordOperator ['i', 'v'] rfl
      (word_letters ['d', 'i', 'v'] rfl rfl hspace)⟩
  | .product .remainder =>
    exact ⟨_, _, scanFrom_wordOperator ['o', 'd'] rfl
      (word_letters ['m', 'o', 'd'] rfl rfl hspace)⟩
  | .comparison .less =>
    have hsign : sign? '<' (c :: cs) = some (.operator (.comparison .less), c :: cs) := by
      simp [sign?, hne]
    have hlexeme : lexeme size false false '<' (c :: cs) =
        .ok (.operator (.comparison .less), c :: cs) := by rw [lexeme, hsign]
    exact ⟨_, _, scanFrom_cons rfl hlexeme⟩
  | .comparison .greater =>
    have hsign : sign? '>' (c :: cs) = some (.operator (.comparison .greater), c :: cs) := by
      simp [sign?, hne]
    have hlexeme : lexeme size false false '>' (c :: cs) =
        .ok (.operator (.comparison .greater), c :: cs) := by rw [lexeme, hsign]
    exact ⟨_, _, scanFrom_cons rfl hlexeme⟩

/-- Two operands with an operator between them are scanned one after another. -/
theorem scansAs_binary {lefts rights : List Char} (op : Operator) (hl : ScansAs lefts tokens)
    (hr : ScansAs rights more) (hbegins : BeginsOperand rights) :
    ScansAs (lefts ++ (op.print ++ rights)) (tokens ++ .operator op :: more) := by
  intro size operand spaced rest hrest
  have hdelimited : Delimited (op.print ++ (rights ++ rest)) := by
    rcases op with op | op | op <;> cases op <;> exact delimited_cons rfl
  have hbegins' : BeginsOperand (rights ++ rest) := by
    obtain ⟨c, cs, rfl, hc⟩ := hbegins
    exact ⟨c, cs ++ rest, rfl, hc⟩
  obtain ⟨operand', spaced', hoperator⟩ := scanFrom_operator size op hbegins'
  rw [List.append_assoc, List.append_assoc, hl size operand spaced _ hdelimited, hoperator,
    hr size operand' spaced' rest hrest, map_append_map, map_append_map]
  simp

theorem Wordlike.count_paren (h : Wordlike u) : u.count '(' = 0 :=
  List.count_eq_zero_of_not_mem fun hc => (h.ne_paren hc).1 rfl

/-- A token is written with one opening parenthesis if it is one. -/
theorem Written.count_paren (h : t.Written u) : u.count '(' = [t].count .leftParen := by
  cases h with
  | number h => exact (Wordlike.literal h.wellFormed).count_paren
  | cell h => exact (Wordlike.name h).count_paren
  | unary f => exact (Wordlike.unary f).count_paren
  | operator op => rcases op with op | op | op <;> cases op <;> rfl
  | leftParen => rfl
  | rightParen => rfl

/-- The parentheses of a text are those of its tokens. -/
theorem Spelt.count_paren {ink : List Char} {tokens : List Token} (h : Spelt operand tokens ink) :
    ink.count '(' = tokens.count .leftParen := by
  induction h with
  | nil => rfl
  | @cons operand t u ink tokens hw hminus h ih =>
    rw [List.count_append, hw.count_paren, ih, ← List.count_append, List.singleton_append]

end Token

open Shape Token

theorem count_inParens (text : List Char) : (inParens text).count '(' = text.count '(' + 1 := by
  rw [inParens, List.count_cons_self, List.count_append]
  rfl

/-- A text with the ends of a printed operand and no two spaces together. -/
structure Printed (text : List Char) : Prop where
  /-- An operand can begin with its first character. -/
  begins : BeginsOperand text
  /-- No space ends it. -/
  last : ∀ c ∈ text.getLast?, c ≠ ' '
  /-- Spaces stand apart. -/
  apart : Apart [' '] text

namespace Printed

variable {text u v : List Char}

theorem not_mem_of_wordlike (h : Wordlike u) : ∀ c ∈ u, c ∉ [' '] := by
  rintro c hc hspace
  obtain rfl := List.mem_singleton.mp hspace
  exact absurd (h.not_isBlank hc) (by decide)

/-- A text like a word is printed without a double space. -/
theorem of_wordlike (h : Wordlike u) (hhead : ∀ c ∈ u.head?, isWordChar c = true) :
    Printed u where
  begins := by
    obtain ⟨c, cs, rfl⟩ := List.exists_cons_of_ne_nil h.ne_nil
    exact ⟨c, cs, rfl, .inl (hhead c rfl)⟩
  last c hc := by
    simpa using not_mem_of_wordlike h c (List.mem_of_getLast? hc)
  apart := apart_of_not_mem (not_mem_of_wordlike h)

/-- A text in parentheses is printed without a double space if the text is. -/
theorem inParens (h : Apart [' '] text) : Printed (inParens text) where
  begins := ⟨_, _, rfl, .inr rfl⟩
  last := by
    intro c hc
    rw [Formula.inParens, ← List.cons_append, List.getLast?_concat] at hc
    obtain rfl : ')' = c := Option.some.inj hc
    decide
  apart := by
    refine apart_append (u := ['(']) (List.isChain_singleton _) ?_ ?_
    · refine apart_append h (List.isChain_singleton _) fun _ _ _ c hc => ?_
      obtain rfl : ')' = c := Option.some.inj hc
      decide
    · intro c hc hspace
      obtain rfl : '(' = c := Option.some.inj hc
      exact absurd hspace (by decide)

/-- A function name in front of a printed operand. -/
theorem unary_append (f : Unary) (h : Printed text) : Printed (f.spelling.toList ++ text) where
  begins := by cases f <;> exact ⟨_, _, rfl, .inl rfl⟩
  last c hc := by
    obtain ⟨d, ds, rfl, _⟩ := h.begins
    rw [List.getLast?_append_of_ne_nil _ (List.cons_ne_nil d ds)] at hc
    exact h.last c hc
  apart := by
    refine apart_append (apart_of_not_mem (not_mem_of_wordlike (.unary f))) h.apart ?_
    intro a ha hspace
    exact absurd hspace (not_mem_of_wordlike (.unary f) a (List.mem_of_getLast? ha))

/-- Two operands are printed without a double space around their operator. -/
theorem binary (op : Operator) (hu : Printed u) (hv : Printed v) :
    Printed (u ++ (op.print ++ v)) where
  begins := by
    obtain ⟨c, cs, rfl, hc⟩ := hu.begins
    exact ⟨c, _, rfl, hc⟩
  last c hc := by
    obtain ⟨d, ds, rfl, _⟩ := hv.begins
    rw [← List.append_assoc, List.getLast?_append_of_ne_nil _ (List.cons_ne_nil d ds)] at hc
    exact hv.last c hc
  apart := by
    have hop : Apart [' '] op.print := by
      unfold Apart
      rcases op with op | op | op <;> cases op <;> decide
    refine apart_append hu.apart (apart_append hop hv.apart fun _ _ _ b hb => ?_)
      fun a ha hspace => ?_
    · obtain ⟨d, ds, rfl, hd⟩ := hv.begins
      obtain rfl : d = b := Option.some.inj hb
      intro hspace
      obtain rfl := List.mem_singleton.mp hspace
      exact absurd hd (by decide)
    · exact absurd (List.mem_singleton.mp hspace) (hu.last a ha)

end Printed

namespace Expr

variable {write : Float → Literal}

/-- A number is printed as a phrase of any place. -/
theorem exists_phrase_number {x : Float} (h : (write x).Denotes x) (place : Tier) :
    Printed ((Expr.number x).print write place) ∧
      ∃ tokens, Phrase place tokens (.number x) ∧
        ScansAs ((Expr.number x).print write place) tokens := by
  have hphrase : Phrase .operand [.number x] (.number x) := .number x
  rw [print]
  cases hneg : (write x).negative with
  | true =>
    have htext : (write x).text = '-' :: (write x).numeral.text := by
      rw [Literal.text, hneg, if_pos rfl]
    have hscans : ScansInside (write x).text [.number x] := by
      rw [htext]
      exact scansInside_negative h.wellFormed (hneg ▸ h.value)
    rw [if_pos rfl]
    refine ⟨.inParens ?_, _, ?_, scansAs_inParens hscans⟩
    · exact apart_of_not_mem (Printed.not_mem_of_wordlike (.literal h.wellFormed))
    · exact Phrase.mono (.group (hphrase.mono (Nat.zero_le _))) (Nat.zero_le _)
  | false =>
    have htext : (write x).text = (write x).numeral.text := by
      rw [Literal.text, hneg, if_neg Bool.false_ne_true]
    rw [if_neg Bool.false_ne_true, htext]
    refine ⟨.of_wordlike (.numeral h.wellFormed) fun c => h.wellFormed.isWordChar_of_mem_head?, _,
      hphrase.mono (Nat.zero_le _), scansAs_numeral h.wellFormed (hneg ▸ h.value)⟩

/-- A tree is printed as a phrase of its place. -/
theorem exists_phrase_print (hnames : ∀ name ∈ e.names, IsName name)
    (hnumbers : ∀ x ∈ e.numbers, (write x).Denotes x) (place : Tier) :
    Printed (e.print write place) ∧
      ∃ tokens, Phrase place tokens e ∧ ScansAs (e.print write place) tokens := by
  -- Along the tree, at every place at once: an operand's place is set by the operator around it.
  induction e generalizing place with
  | number x => exact exists_phrase_number (hnumbers x (List.mem_singleton_self x)) place
  | cell name =>
    have hname : IsName name := hnames name (List.mem_singleton_self name)
    refine ⟨.of_wordlike (.name hname) fun c hc => hname.isWordChar (List.mem_of_head? hc), _,
      Phrase.mono (.cell name) (Nat.zero_le _), scansAs_name hname⟩
  | call f argument ih =>
    obtain ⟨hprinted, tokens, hphrase, hscans⟩ := ih hnames hnumbers .comparison
    exact ⟨(Printed.inParens hprinted.apart).unary_append f, _,
      Phrase.mono (.call f hphrase) (Nat.zero_le _), scansAs_call f hscans.inside⟩
  | binary op left right ihl ihr =>
    obtain ⟨hleft, lefts, hlefts, hscansLeft⟩ :=
      ihl (fun name hname => hnames name (List.mem_append_left _ hname))
        (fun x hx => hnumbers x (List.mem_append_left _ hx)) op.leftTier
    obtain ⟨hright, rights, hrights, hscansRight⟩ :=
      ihr (fun name hname => hnames name (List.mem_append_right _ hname))
        (fun x hx => hnumbers x (List.mem_append_right _ hx)) op.rightTier
    have hprinted := Printed.binary op hleft hright
    have hphrase := Phrase.binary op hlefts hrights
    have hscans := scansAs_binary op hscansLeft hscansRight hright.begins
    rw [print]
    split
    · rename_i hfits
      exact ⟨hprinted, _, hphrase.mono hfits, hscans⟩
    · have hgroup : Phrase .comparison _ _ := hphrase.mono op.tier.looseness_le_comparison
      exact ⟨.inParens hprinted.apart, _, Phrase.mono (.group hgroup) (Nat.zero_le _),
        scansAs_inParens hscans.inside⟩

/-- A tree is printed with the parentheses that it needs and those around its negative literals. -/
theorem count_print (hnames : ∀ name ∈ e.names, IsName name)
    (hnumbers : ∀ x ∈ e.numbers, (write x).Denotes x) (place : Tier) :
    (e.print write place).count '(' =
      e.parens place + e.numbers.countP fun x => (write x).negative := by
  induction e generalizing place with
  | number x =>
    have hnumeral := (hnumbers x (List.mem_singleton_self x)).wellFormed
    have hcount : (write x).text.count '(' = 0 := (Wordlike.literal hnumeral).count_paren
    rw [print, numbers, List.countP_singleton, parens, Nat.zero_add]
    split
    · rw [count_inParens, hcount]
    · exact hcount
  | cell name => exact (Wordlike.name (hnames name (List.mem_singleton_self name))).count_paren
  | call f argument ih =>
    have hcount := ih hnames hnumbers .comparison
    rw [print, numbers, parens, List.count_append, (Wordlike.unary f).count_paren, count_inParens,
      hcount]
    omega
  | binary op left right ihl ihr =>
    have hleft := ihl (fun name hname => hnames name (List.mem_append_left _ hname))
      (fun x hx => hnumbers x (List.mem_append_left _ hx)) op.leftTier
    have hright := ihr (fun name hname => hnames name (List.mem_append_right _ hname))
      (fun x hx => hnumbers x (List.mem_append_right _ hx)) op.rightTier
    have hop : op.print.count '(' = 0 := by
      rcases op with op | op | op <;> cases op <;> decide
    have hcount : (left.print write op.leftTier ++
        (op.print ++ right.print write op.rightTier)).count '(' =
          (left.print write op.leftTier).count '(' +
            (right.print write op.rightTier).count '(' := by
      rw [List.count_append, List.count_append, hop, Nat.zero_add]
    rw [print, numbers, parens, List.countP_append]
    split
    · rw [hcount]
      omega
    · rw [count_inParens, hcount]
      omega

/-- A text that is read as a tree has the parentheses that the tree needs. -/
theorem parens_le_of_parse {body : List Char} (h : parse body = .ok e) :
    e.parens .comparison ≤ body.count '(' := by
  obtain ⟨tokens, hscan, htree⟩ := exists_tokens_of_parse h
  calc e.parens .comparison
      ≤ tokens.count .leftParen := (phrase_of_ofTokens htree).parens_le
    _ = (Text.ink body).count '(' := (spelt_of_scanFrom hscan).count_paren.symm
    _ ≤ body.count '(' := List.filter_sublist.count_le '('

/-- A tree whose cells have names and whose numbers can be written is printed as a text that passes
the check of shape and is read back as the tree. No text that is read as the tree has fewer
parentheses, those around negative literals apart. -/
theorem parse_print (hnames : ∀ name ∈ e.names, IsName name)
    (hnumbers : ∀ x ∈ e.numbers, (write x).Denotes x) :
    Shape.fault? (String.ofList ('=' :: e.print write .comparison)) = none ∧
      parse (e.print write .comparison) = .ok e ∧
      ∀ body, parse body = .ok e → (e.print write .comparison).count '(' ≤
        body.count '(' + e.numbers.countP fun x => (write x).negative := by
  obtain ⟨hprinted, tokens, hphrase, hscans⟩ := exists_phrase_print hnames hnumbers .comparison
  have hparse : parse (e.print write .comparison) = .ok e := by
    have hscan : Token.scan (e.print write .comparison) = .ok tokens := by
      have hall := hscans (byteSize (e.print write .comparison)) true false [] (by simp [Delimited])
      rw [List.append_nil, scanFrom, Except.map, List.append_nil] at hall
      exact hall
    rw [parse, hscan]
    exact ofTokens_of_phrase hphrase
  have hspaces : ¬ [' ', ' '] <:+: Text.trim (e.print write .comparison) := fun hmeet =>
    hprinted.apart.not_meet (by decide) (by decide) (hmeet.trans (Text.trim_isInfix _))
  refine ⟨?_, hparse, fun body hbody => ?_⟩
  · rw [Shape.fault?_formula, Shape.bodyFault?_trim_of_parse hparse, if_neg hspaces]
  · rw [count_print hnames hnumbers]
    exact Nat.add_le_add_right (parens_le_of_parse hbody) _

/-- A call, a word operator between its spaces, a literal with an exponent and a negative one, and
the two pairs of parentheses that are printed. -/
theorem parse_print_nested :
    let write : Float → Literal := fun x =>
      if x = 17 then ⟨false, ⟨['1'], some ['7'], some ⟨'E', none, ['1']⟩⟩⟩
      else ⟨true, ⟨['5'], none, none⟩⟩
    let e : Expr := .binary (.comparison .less) (.call .increment (.cell "A1"))
      (.binary (.product .remainder) (.number 17)
        (.binary (.sum .subtract) (.number (-5)) (.cell "B2")))
    (∀ name ∈ e.names, IsName name) ∧ (∀ x ∈ e.numbers, (write x).Denotes x) ∧
      e.print write .comparison = "inc(A1)<1.7E1 mod ((-5)-B2)".toList ∧
      Shape.fault? "=inc(A1)<1.7E1 mod ((-5)-B2)" = none ∧
      parse "inc(A1)<1.7E1 mod ((-5)-B2)".toList = .ok e ∧
      (∀ body, parse body = .ok e → 3 ≤ body.count '(' + 1) := by
  intro write e
  have hseventeen : write 17 = ⟨false, ⟨['1'], some ['7'], some ⟨'E', none, ['1']⟩⟩⟩ := if_pos rfl
  have hfive : write (-5) = ⟨true, ⟨['5'], none, none⟩⟩ := if_neg (by decide +kernel)
  have hnames : ∀ name ∈ e.names, IsName name := by
    intro name hname
    obtain rfl | rfl : name = "A1" ∨ name = "B2" := by simpa [e, names] using hname
    · exact ⟨['A'], ['1'], by decide⟩
    · exact ⟨['B'], ['2'], by decide⟩
  have hnumbers : ∀ x ∈ e.numbers, (write x).Denotes x := by
    intro x hx
    obtain rfl | rfl : x = 17 ∨ x = -5 := by simpa [e, numbers] using hx
    · rw [hseventeen]
      refine ⟨⟨rfl, rfl, by decide, ?_⟩, by decide +kernel⟩
      intro exponent hexponent
      obtain rfl := Option.some.inj hexponent
      exact ⟨.inr rfl, by simp, by decide, by decide⟩
    · rw [hfive]
      exact ⟨⟨rfl, rfl, by decide, by simp⟩, by decide +kernel⟩
  have hprint : e.print write .comparison = "inc(A1)<1.7E1 mod ((-5)-B2)".toList := by
    simp only [e, print, hseventeen, hfive]
    rfl
  obtain ⟨hfault, hparse, hfewest⟩ := parse_print hnames hnumbers
  rw [hprint] at hfault hparse hfewest
  have htext : String.ofList ('=' :: "inc(A1)<1.7E1 mod ((-5)-B2)".toList) =
      "=inc(A1)<1.7E1 mod ((-5)-B2)" := rfl
  have hcount : "inc(A1)<1.7E1 mod ((-5)-B2)".toList.count '(' = 3 := by rfl
  have hnegative : (e.numbers.countP fun x => (write x).negative) = 1 := by
    simp only [e, numbers, List.nil_append, List.append_nil, List.cons_append, List.countP_cons,
      List.countP_nil, hseventeen, hfive]
    rfl
  rw [htext] at hfault
  rw [hcount, hnegative] at hfewest
  exact ⟨hnames, hnumbers, hprint, hfault, hparse, hfewest⟩

end Expr

end Spreadsheet.Formula
