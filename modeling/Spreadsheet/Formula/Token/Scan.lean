import Spreadsheet.Formula.Fault
import Spreadsheet.Number.Numeral

/-!
# Splitting a formula into tokens

`Token.scan` reads a text from left to right and takes the longest token at each place; white
space between tokens is skipped. A minus sign begins a number only where an operand is due: at
the start, after a left parenthesis and after a comparison. Every token that is read leaves a
shorter text behind.
-/

namespace Spreadsheet.Formula.Token

/-- The white space that may stand between tokens. -/
def isSpace (c : Char) : Bool :=
  c == ' ' || c == '\t' || c == '\n' || c == '\x0c' || c == '\x0d'

/-- The size of a text in bytes of UTF-8. -/
def byteSize (text : List Char) : Nat := text.foldl (fun size c => size + c.utf8Size) 0

/-- The sign at the head of a text, the minus sign apart, and what follows it. -/
def sign? : Char → List Char → Option (Token × List Char)
  | '+', rest => some (.operator (.sum .add), rest)
  | '*', rest => some (.operator (.product .multiply), rest)
  | '/', rest => some (.operator (.product .divide), rest)
  | '(', rest => some (.leftParen, rest)
  | ')', rest => some (.rightParen, rest)
  | '=', rest => some (.operator (.comparison .equal), rest)
  | '<', '=' :: rest => some (.operator (.comparison .lessEqual), rest)
  | '<', '>' :: rest => some (.operator (.comparison .notEqual), rest)
  | '<', rest => some (.operator (.comparison .less), rest)
  | '>', '=' :: rest => some (.operator (.comparison .greaterEqual), rest)
  | '>', rest => some (.operator (.comparison .greater), rest)
  | _, _ => none

/-- The number at the head of a text, if one begins there; a negative one has its minus sign
in front of the text. -/
def number? (negative : Bool) (text : List Char) : Option (Except Fault (Token × List Char)) :=
  (Numeral.scan text).map fun (n, rest) =>
    match n.value? negative with
    | some value => .ok (.number value, rest)
    | none => .error (.invalidNumber (String.ofList (if negative then '-' :: n.text else n.text)))

/-- A word operator; `spaced` says that white space stands in front of it. -/
def wordOperator (spaced : Bool) (op : ProductOp) (rest : List Char) :
    Except Fault (Token × List Char) :=
  if spaced then .ok (.operator (.product op), rest) else .error (.unspacedOperator op)

/-- A function name, which needs a parenthesis after it. -/
def functionName (f : Unary) (rest : List Char) : Except Fault (Token × List Char) :=
  if rest.head? = some '(' then .ok (.unary f, rest) else .error (.detachedFunction f)

/-- The word at the head of a text: capital letters with digits after them are a cell name,
any other letters must be an operator or a function name. -/
def word (spaced : Bool) (text : List Char) : Except Fault (Token × List Char) :=
  let letters := text.takeWhile Char.isAlpha
  let rest := text.dropWhile Char.isAlpha
  let digits := rest.takeWhile Char.isDigit
  if letters.all Char.isUpper ∧ digits ≠ [] then
    .ok (.cell (String.ofList (letters ++ digits)), rest.dropWhile Char.isDigit)
  else if letters = ['m', 'o', 'd'] then wordOperator spaced .remainder rest
  else if letters = ['d', 'i', 'v'] then wordOperator spaced .quotient rest
  else if letters = ['i', 'n', 'c'] then functionName .increment rest
  else if letters = ['d', 'e', 'c'] then functionName .decrement rest
  else .error (.unknownWord (String.ofList letters))

/-- The token at the head of a text that starts with `c`, and what follows it. `size` is the
size of the whole formula, `operand` says that an operand is due, and `spaced` that white
space stands in front of `c`. -/
def lexeme (size : Nat) (operand spaced : Bool) (c : Char) (rest : List Char) :
    Except Fault (Token × List Char) :=
  match sign? c rest with
  | some found => .ok found
  | none =>
    if c = '-' then
      match if operand then number? true rest else none with
      | some result => result
      | none => .ok (.operator (.sum .subtract), rest)
    else
      match number? false (c :: rest) with
      | some result => result
      | none =>
        if c.isAlpha then word spaced (c :: rest)
        else .error (.unexpectedChar (size - byteSize (c :: rest)) c)

private theorem length_dropWhile_le (p : Char → Bool) (text : List Char) :
    (text.dropWhile p).length ≤ text.length :=
  (List.dropWhile_sublist p).length_le

theorem length_of_sign? {c : Char} {rest left : List Char} {t : Token}
    (h : sign? c rest = some (t, left)) : left.length ≤ rest.length := by
  unfold sign? at h
  split at h <;> simp only [Option.some.injEq, Prod.mk.injEq, reduceCtorEq] at h <;>
    obtain ⟨_, rfl⟩ := h <;> simp

/-- A number takes at least one character. -/
theorem length_of_number? {negative : Bool} {text left : List Char} {t : Token}
    (h : number? negative text = some (.ok (t, left))) : left.length < text.length := by
  simp only [number?, Option.map_eq_some_iff] at h
  obtain ⟨⟨n, rest⟩, hs, hn⟩ := h
  have hlt := Numeral.length_lt_of_scan hs
  simp only at hn
  split at hn
  · simp only [Except.ok.injEq, Prod.mk.injEq] at hn
    rw [← hn.2]
    exact hlt
  · simp at hn

/-- A word takes all the letters at its head. -/
theorem length_of_word {spaced : Bool} {text left : List Char} {t : Token}
    (h : word spaced text = .ok (t, left)) :
    left.length ≤ (text.dropWhile Char.isAlpha).length := by
  simp only [word] at h
  have hdigits := length_dropWhile_le Char.isDigit (text.dropWhile Char.isAlpha)
  split at h
  · simp only [Except.ok.injEq, Prod.mk.injEq] at h
    rw [← h.2]
    exact hdigits
  · simp only [wordOperator, functionName] at h
    repeat' split at h
    all_goals first
      | (simp at h; done)
      | (simp only [Except.ok.injEq, Prod.mk.injEq] at h; exact Nat.le_of_eq (congrArg _ h.2.symm))

/-- A token that is read leaves a shorter text behind. -/
theorem length_of_lexeme {size : Nat} {operand spaced : Bool} {c : Char}
    {rest left : List Char} {t : Token} (h : lexeme size operand spaced c rest = .ok (t, left)) :
    left.length ≤ rest.length := by
  unfold lexeme at h
  split at h
  · rename_i found hs
    cases h
    exact length_of_sign? hs
  · split at h
    · split at h
      · rename_i result hn
        subst h
        split at hn
        · exact Nat.le_of_lt (length_of_number? hn)
        · simp at hn
      · cases h
        exact Nat.le_refl _
    · split at h
      · rename_i result hn
        subst h
        have hlt := length_of_number? hn
        simp only [List.length_cons] at hlt
        omega
      · split at h
        · rename_i halpha
          have hle := length_of_word h
          have hdrop := length_dropWhile_le Char.isAlpha rest
          simp only [List.dropWhile_cons, halpha, if_true] at hle
          omega
        · simp at h

/-- The tokens of the rest of a formula of a given size. -/
def scanFrom (size : Nat) (operand spaced : Bool) : List Char → Except Fault (List Token)
  | [] => .ok []
  | c :: rest =>
    if isSpace c then scanFrom size operand true rest
    else match _h : lexeme size operand spaced c rest with
      | .error fault => .error fault
      | .ok (t, left) => (scanFrom size t.opensOperand false left).map (t :: ·)
termination_by text => text.length
decreasing_by
  · simp
  · have := length_of_lexeme _h
    simp only [List.length_cons]
    omega

/-- The tokens of a formula's body, the text after its `=`. -/
def scan (text : List Char) : Except Fault (List Token) :=
  scanFrom (byteSize text) true false text

end Spreadsheet.Formula.Token
