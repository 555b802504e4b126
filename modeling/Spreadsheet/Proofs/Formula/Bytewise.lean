import Spreadsheet.Proofs.Formula.Unexpected
import Spreadsheet.Proofs.Number.ReadBack
import Spreadsheet.Proofs.Text.Bytes

/-!
# Scanning byte by byte

A scanner that walks over the bytes of a text slices it where a token ends, and slicing fails
anywhere but at a boundary between characters. The scanner moves its position by one byte at a
time, and only past bytes of ASCII, so that it meets boundaries only, and finds the tokens that are
found character by character.
-/

namespace Spreadsheet.Formula.Token

open Text (byte? slice? skip At Ascii ascii_eq)

/-- What a scanner does that walks over bytes. It has no result if it slices its text off the
boundaries between characters or does not come to an end. -/
abbrev Walk := ExceptT Fault Option

/-- How far a scanner is. -/
structure Cursor where
  /-- The position in bytes. -/
  pos : Nat
  /-- The tokens in front of it. -/
  tokens : List Token

namespace Walk

/-- The text between two positions. -/
def slice (text : String) (start stop : Nat) : Walk String := ExceptT.lift (slice? text start stop)

/-- Whether a minus sign after some tokens can begin a number. -/
def startsOperand (tokens : List Token) : Bool := (tokens.getLast?.map opensOperand).getD true

/-- Whether white space stands in front of a position. -/
def spaced (text : String) (pos : Nat) : Bool := 0 < pos && (byte? text (pos - 1)).any isSpace

/-- Whether a number begins at a position. -/
def numberFollows (text : String) (pos : Nat) : Bool :=
  (byte? text pos).any Char.isDigit ||
    ((byte? text pos).any (· == '.') && (byte? text (pos + 1)).any Char.isDigit)

/-- Where the exponent at a position ends. It needs digits after its mark and sign. -/
def exponentEnd (text : String) (pos : Nat) : Nat :=
  if (byte? text pos).any fun b => b == 'e' || b == 'E' then
    let digits := if (byte? text (pos + 1)).any fun b => b == '+' || b == '-' then 2 else 1
    if (byte? text (pos + digits)).any Char.isDigit then skip Char.isDigit text (pos + digits)
    else pos
  else pos

/-- Where the digits from a position on end, with a point and the digits after it. -/
def mantissaEnd (text : String) (pos : Nat) : Nat :=
  let whole := skip Char.isDigit text pos
  if (byte? text whole).any (· == '.') then skip Char.isDigit text (whole + 1) else whole

/-- Where the number at a position ends, which may begin with a minus sign. -/
def numberEnd (text : String) (start : Nat) : Nat :=
  let unsigned := if (byte? text start).any (· == '-') then start + 1 else start
  exponentEnd text (mantissaEnd text unsigned)

/-- The number at a position, and where it ends. -/
def scanNumber (text : String) (start : Nat) : Walk (Token × Nat) := do
  let stop := numberEnd text start
  let literal ← slice text start stop
  match Numeral.read? (Text.trim literal.toList) with
  | some x => return (.number x, stop)
  | none => throw (.invalidNumber literal)

/-- A word operator, which needs white space in front of it. -/
def wordOperator (text : String) (op : ProductOp) (start stop : Nat) : Walk (Token × Nat) :=
  if spaced text start then return (.operator (.product op), stop) else throw (.unspacedOperator op)

/-- A function name, which needs a parenthesis after it. -/
def functionName (text : String) (f : Unary) (stop : Nat) : Walk (Token × Nat) :=
  if (byte? text stop).any (· == '(') then return (.unary f, stop) else throw (.detachedFunction f)

/-- The word at a position, and where it ends. -/
def scanWord (text : String) (start : Nat) : Walk (Token × Nat) := do
  let stop := skip Char.isAlpha text start
  let word ← slice text start stop
  if word.toList.all Char.isUpper ∧ (byte? text stop).any Char.isDigit then
    let stop := skip Char.isDigit text stop
    return (.cell (← slice text start stop), stop)
  else if word = "mod" then wordOperator text .remainder start stop
  else if word = "div" then wordOperator text .quotient start stop
  else if word = "inc" then functionName text .increment stop
  else if word = "dec" then functionName text .decrement stop
  else throw (.unknownWord word)

/-- The token that begins with a byte, and where it ends. -/
def token (text : String) (k : Cursor) : Char → Walk (Token × Nat)
  | '+' => return (.operator (.sum .add), k.pos + 1)
  | '*' => return (.operator (.product .multiply), k.pos + 1)
  | '/' => return (.operator (.product .divide), k.pos + 1)
  | '(' => return (.leftParen, k.pos + 1)
  | ')' => return (.rightParen, k.pos + 1)
  | '=' => return (.operator (.comparison .equal), k.pos + 1)
  | '<' =>
    if (byte? text (k.pos + 1)).any (· == '=') then
      return (.operator (.comparison .lessEqual), k.pos + 2)
    else if (byte? text (k.pos + 1)).any (· == '>') then
      return (.operator (.comparison .notEqual), k.pos + 2)
    else return (.operator (.comparison .less), k.pos + 1)
  | '>' =>
    if (byte? text (k.pos + 1)).any (· == '=') then
      return (.operator (.comparison .greaterEqual), k.pos + 2)
    else return (.operator (.comparison .greater), k.pos + 1)
  | '-' =>
    if startsOperand k.tokens && numberFollows text (k.pos + 1) then scanNumber text k.pos
    else return (.operator (.sum .subtract), k.pos + 1)
  | b =>
    if b.isDigit || (b == '.' && numberFollows text k.pos) then scanNumber text k.pos
    else if b.isAlpha then scanWord text k.pos
    else do
      let after ← slice text k.pos text.utf8ByteSize
      throw (.unexpectedChar k.pos (after.toList.head?.getD '?'))

/-- Skip a white space or scan a token, or stop at the end of the text. -/
def iterate (text : String) (k : Cursor) : Walk (Cursor ⊕ List Token) :=
  match byte? text k.pos with
  | none => return .inr k.tokens
  | some b =>
    if isSpace b then return .inl ⟨k.pos + 1, k.tokens⟩
    else do
      let (t, stop) ← token text k b
      return .inl ⟨stop, k.tokens ++ [t]⟩

/-- The tokens from a position on, behind those in front of it. -/
def scanFrom (text : String) (k : Cursor) : Walk (List Token) := repeatM (iterate text) k

/-- The tokens of a text. -/
def scan (text : String) : Walk (List Token) := scanFrom text ⟨0, []⟩

/-- A scanner goes on after an iteration, or stops. -/
theorem scanFrom_eq (text : String) (k : Cursor) : scanFrom text k = (do
    match ← iterate text k with
    | .inl k' => scanFrom text k'
    | .inr tokens => return tokens) := by
  unfold scanFrom
  conv_lhs => rw [repeatM_eq_of_monadTail]
  unfold repeatM.body
  refine bind_congr fun outcome => ?_
  cases outcome <;> rfl

variable {text : String} {pos start stop : Nat} {c : Char} {cs rest left : List Char}
  {negative : Bool} {op : ProductOp} {f : Unary} {k k' : Cursor}

theorem ascii_isWordChar : Ascii isWordChar := fun c hc => by
  have hword := toNat_of_isWordChar hc
  omega

theorem ascii_isDigit : Ascii Char.isDigit :=
  fun c hc => ascii_isWordChar c (isWordChar_of_isDigit hc)

theorem ascii_isAlpha : Ascii Char.isAlpha :=
  fun c hc => ascii_isWordChar c (isWordChar_of_isAlpha hc)

theorem ascii_isSpace : Ascii isSpace := fun c hc => by
  simp only [isSpace, Bool.or_eq_true, beq_iff_eq] at hc
  rcases hc with (((rfl | rfl) | rfl) | rfl) | rfl <;> decide

theorem takeDigits_eq_nil_iff :
    (Numeral.takeDigits cs).1 = [] ↔ cs.head?.any Char.isDigit = false := by
  cases cs with
  | nil => simp [Numeral.takeDigits]
  | cons c cs => cases hc : c.isDigit <;> simp [Numeral.takeDigits, hc]

/-- A sign in front of the digits of an exponent is passed over. -/
theorem exists_at_exponent {mark : Char} (hmark : mark = 'e' ∨ mark = 'E')
    (h : At text (pos + 1) rest) : ∃ sign after,
      At text (pos + if (byte? text (pos + 1)).any fun b => b == '+' || b == '-' then 2 else 1)
          after ∧
        Numeral.Exponent.scan (mark :: rest) =
          if (Numeral.takeDigits after).1 = [] then none
          else some (⟨mark, sign, (Numeral.takeDigits after).1⟩, (Numeral.takeDigits after).2) := by
  rw [h.any_byte? ((ascii_eq '+' (by decide)).or (ascii_eq '-' (by decide)))]
  cases rest with
  | nil => exact ⟨none, [], h, by simp [Numeral.Exponent.scan, hmark]⟩
  | cons c after =>
    by_cases hc : c = '+' ∨ c = '-'
    · have hascii : c.toNat < 128 := by rcases hc with rfl | rfl <;> decide
      refine ⟨some c, after, ?_, by simp [Numeral.Exponent.scan, hmark, hc]⟩
      simpa [hc] using h.cons hascii
    · refine ⟨none, c :: after, ?_, by simp [Numeral.Exponent.scan, hmark, hc]⟩
      simpa [hc] using h

/-- The bytes of an exponent end where its characters do. -/
theorem exponentEnd_at (h : At text pos cs) :
    At text (exponentEnd text pos) (Numeral.afterExponent cs) := by
  have hmarked := h.any_byte? ((ascii_eq 'e' (by decide)).or (ascii_eq 'E' (by decide)))
  rw [Numeral.afterExponent, exponentEnd, hmarked]
  cases cs with
  | nil => exact h
  | cons mark rest =>
    by_cases hmark : mark = 'e' ∨ mark = 'E'
    · have hrest : At text (pos + 1) rest := h.cons (by rcases hmark with rfl | rfl <;> decide)
      obtain ⟨sign, after, hafter, hscan⟩ := exists_at_exponent hmark hrest
      rw [if_pos (by simpa using hmark), hscan]
      simp only [hafter.any_byte? ascii_isDigit]
      by_cases hdigits : (Numeral.takeDigits after).1 = []
      · rw [if_pos hdigits, takeDigits_eq_nil_iff.mp hdigits]
        exact h
      · rw [if_neg hdigits, if_pos (by simpa [takeDigits_eq_nil_iff] using hdigits)]
        exact hafter.skip ascii_isDigit
    · rw [Numeral.Exponent.scan_eq_none (by simpa using hmark), if_neg (by simpa using hmark)]
      exact h

/-- The bytes of a mantissa end where its characters do. -/
theorem mantissaEnd_at (h : At text pos cs) :
    At text (mantissaEnd text pos) (Numeral.afterMantissa cs) := by
  have hwhole : At text (skip Char.isDigit text pos) (Numeral.takeDigits cs).2 :=
    h.skip ascii_isDigit
  simp only [Numeral.afterMantissa, mantissaEnd, hwhole.any_byte?_eq (c := '.') (by decide)]
  generalize (Numeral.takeDigits cs).2 = after at hwhole
  split
  · rename_i hpoint
    obtain ⟨rest, rfl⟩ := List.head?_eq_some_iff.mp hpoint
    exact (hwhole.cons (by decide)).skip ascii_isDigit
  · rename_i hpoint
    rw [Numeral.scanFraction_of_ne fun c hc hsame => hpoint (hsame ▸ hc)]
    exact hwhole

/-- A number begins where a numeral is scanned. -/
theorem numberFollows_eq (h : At text pos cs) :
    numberFollows text pos = (Numeral.scan cs).isSome := by
  rw [Bool.eq_iff_iff, Numeral.isSome_scan_iff, numberFollows, Bool.or_eq_true, Bool.and_eq_true,
    h.any_byte? ascii_isDigit, h.any_byte?_eq (by decide), Ne, takeDigits_eq_nil_iff,
    Bool.not_eq_false]
  by_cases hdigit : cs.head?.any Char.isDigit = true
  · simp [hdigit]
  · rw [or_iff_right hdigit, or_iff_right hdigit]
    have hwhole : (Numeral.takeDigits cs).2 = cs := by
      have happend := Numeral.takeDigits_append cs
      rwa [takeDigits_eq_nil_iff.mpr (Bool.not_eq_true _ ▸ hdigit)] at happend
    rw [hwhole]
    by_cases hpoint : cs.head? = some '.'
    · obtain ⟨rest, rfl⟩ := List.head?_eq_some_iff.mp hpoint
      have hrest : At text (pos + 1) rest := h.cons (by decide)
      simp [Numeral.scanFraction, hrest.any_byte? ascii_isDigit, takeDigits_eq_nil_iff]
    · simp [hpoint, Numeral.scanFraction_of_ne fun c hc hsame => hpoint (hsame ▸ hc)]

/-- The bytes of a number end where its characters do. -/
theorem numberEnd_at {n : Numeral} (h : At text start (if negative then '-' :: cs else cs))
    (hscan : Numeral.scan cs = some (n, left)) : At text (numberEnd text start) left := by
  rw [numberEnd, h.any_byte? (ascii_eq '-' (by decide)), Numeral.snd_scan hscan]
  refine exponentEnd_at (mantissaEnd_at ?_)
  cases negative with
  | true => exact h.cons (by decide)
  | false =>
    obtain ⟨c, u, hu, hminus, -⟩ := (Numeral.wellFormed_of_scan hscan).exists_cons
    have hcs : cs = c :: (u ++ left) := by
      rw [← Numeral.text_append_of_scan hscan, hu, List.cons_append]
    subst hcs
    simpa [hminus] using h

/-- What a walk finds at a position: a token and what follows it, or a fault. -/
def Finds (text : String) (walk : Walk (Token × Nat)) : Except Fault (Token × List Char) → Prop
  | .ok (t, left) => ∃ stop, walk = pure (t, stop) ∧ At text stop left
  | .error fault => walk = throw fault

theorem finds_return {t : Token} (h : At text stop left) :
    Finds text (return (t, stop)) (.ok (t, left)) := ⟨stop, rfl, h⟩

theorem finds_throw (fault : Fault) : Finds text (throw fault) (.error fault) := rfl

/-- A walk goes on behind a slice between two boundaries. -/
theorem slice_bind {α : Type} {u : List Char} {next : String → Walk α}
    (h : At text start (u ++ left)) (h' : At text stop left) :
    (slice text start stop >>= next) = next (String.ofList u) := by
  rw [slice, h.slice?_eq h']
  rfl

/-- The literal at a position is what its numeral is scanned from. -/
theorem literal_at {n : Numeral} (h : At text start (if negative then '-' :: cs else cs))
    (hscan : Numeral.scan cs = some (n, left)) :
    At text start ((Literal.mk negative n).text ++ left) := by
  rw [← Numeral.text_append_of_scan hscan] at h
  cases negative <;> exact h

/-- A literal has no blanks at its ends. -/
theorem trim_literal {l : Literal} (h : l.numeral.WellFormed) : Text.trim l.text = l.text :=
  Text.trim_eq_self fun _ hc => (Wordlike.literal h).not_isBlank hc

/-- A number is found among the bytes as it is among the characters. -/
theorem finds_scanNumber (h : At text start (if negative then '-' :: cs else cs))
    {result : Except Fault (Token × List Char)} (hresult : number? negative cs = some result) :
    Finds text (scanNumber text start) result := by
  obtain ⟨⟨n, left⟩, hscan, rfl⟩ := Option.map_eq_some_iff.mp hresult
  have hn := Numeral.wellFormed_of_scan hscan
  have hstop := numberEnd_at h hscan
  have hread : Numeral.read? (Literal.mk negative n).text = n.value? negative :=
    hn.read?_text negative
  rw [scanNumber, slice_bind (literal_at h hscan) hstop, String.toList_ofList, trim_literal hn,
    hread]
  simp only
  cases n.value? negative with
  | none => exact finds_throw _
  | some x => exact finds_return hstop

/-- An operator that is a word is found as it is among the characters. -/
theorem finds_wordOperator (h : At text stop left) :
    Finds text (wordOperator text op start stop)
      (Token.wordOperator (spaced text start) op left) := by
  unfold wordOperator Token.wordOperator
  split
  · exact finds_return h
  · exact finds_throw _

/-- The name of a function is found as it is among the characters. -/
theorem finds_functionName (h : At text stop left) :
    Finds text (functionName text f stop) (Token.functionName f left) := by
  unfold functionName Token.functionName
  simp only [h.any_byte?_eq (c := '(') (by decide)]
  split
  · exact finds_return h
  · exact finds_throw _

theorem ofList_eq_iff {letters : List Char} {name : String} :
    String.ofList letters = name ↔ letters = name.toList := by
  rw [← String.toList_inj, String.toList_ofList]

/-- A word is found among the bytes as it is among the characters. -/
theorem finds_scanWord (h : At text start cs) :
    Finds text (scanWord text start) (word (spaced text start) cs) := by
  have hstop : At text (skip Char.isAlpha text start) (cs.dropWhile Char.isAlpha) :=
    h.skip ascii_isAlpha
  have hend := hstop.skip ascii_isDigit
  have hword : At text start (cs.takeWhile Char.isAlpha ++ cs.dropWhile Char.isAlpha) := by
    rwa [List.takeWhile_append_dropWhile]
  have hname : At text start (cs.takeWhile Char.isAlpha ++
      (cs.dropWhile Char.isAlpha).takeWhile Char.isDigit ++
        (cs.dropWhile Char.isAlpha).dropWhile Char.isDigit) := by
    rwa [List.append_assoc, List.takeWhile_append_dropWhile]
  have hdigit : (cs.dropWhile Char.isAlpha).head?.any Char.isDigit = true ↔
      (cs.dropWhile Char.isAlpha).takeWhile Char.isDigit ≠ [] := by
    rw [← Bool.not_eq_false, not_iff_not]
    exact takeDigits_eq_nil_iff.symm
  have hnames : "mod".toList = ['m', 'o', 'd'] ∧ "div".toList = ['d', 'i', 'v'] ∧
      "inc".toList = ['i', 'n', 'c'] ∧ "dec".toList = ['d', 'e', 'c'] := by decide
  rw [scanWord, slice_bind hword hstop, slice_bind hname hend]
  simp only [word, String.toList_ofList, hstop.any_byte? ascii_isDigit, hdigit, ofList_eq_iff,
    hnames]
  split_ifs
  · exact finds_return hend
  · exact finds_wordOperator hstop
  · exact finds_wordOperator hstop
  · exact finds_functionName hstop
  · exact finds_functionName hstop
  · exact finds_throw _

/-- A sign is found, the minus sign apart. -/
theorem finds_sign (h : At text k.pos (c :: rest)) {found : Token × List Char}
    (hsign : sign? c rest = some found) : Finds text (token text k c) (.ok found) := by
  unfold sign? at hsign
  split at hsign
  case h_7 rest =>
    cases hsign
    have hnext : At text (k.pos + 1) ('=' :: rest) := h.cons (by decide)
    simp only [token, hnext.any_byte?_eq (c := '=') (by decide)]
    exact finds_return (hnext.cons (by decide))
  case h_8 rest =>
    cases hsign
    have hnext : At text (k.pos + 1) ('>' :: rest) := h.cons (by decide)
    simp only [token, hnext.any_byte?_eq (c := '=') (by decide),
      hnext.any_byte?_eq (c := '>') (by decide)]
    exact finds_return (hnext.cons (by decide))
  case h_9 hequal hmore =>
    cases hsign
    have hnext : At text (k.pos + 1) rest := h.cons (by decide)
    simp only [token, hnext.any_byte?_eq (c := '=') (by decide),
      hnext.any_byte?_eq (c := '>') (by decide)]
    rw [if_neg (mt List.head?_eq_some_iff.mp (not_exists.mpr hequal)),
      if_neg (mt List.head?_eq_some_iff.mp (not_exists.mpr hmore))]
    exact finds_return hnext
  case h_10 rest =>
    cases hsign
    have hnext : At text (k.pos + 1) ('=' :: rest) := h.cons (by decide)
    simp only [token, hnext.any_byte?_eq (c := '=') (by decide)]
    exact finds_return (hnext.cons (by decide))
  case h_11 hequal =>
    cases hsign
    have hnext : At text (k.pos + 1) rest := h.cons (by decide)
    simp only [token, hnext.any_byte?_eq (c := '=') (by decide)]
    rw [if_neg (mt List.head?_eq_some_iff.mp (not_exists.mpr hequal))]
    exact finds_return hnext
  case h_12 => cases hsign
  all_goals
    cases hsign
    exact finds_return (h.cons (by decide))

theorem lt_of_mem_marks (hc : c ∈ marks) : c.toNat < 128 := by
  have hall : ∀ c ∈ marks, c.toNat < 128 := Shape.forall_mem_of_all (by decide)
  exact hall c hc

/-- A minus sign begins a number where an operand is due and a numeral follows. -/
theorem finds_minus (h : At text k.pos ('-' :: rest)) (size : Nat) :
    Finds text (token text k '-')
      (lexeme size (startsOperand k.tokens) (spaced text k.pos) '-' rest) := by
  have hrest : At text (k.pos + 1) rest := h.cons (by decide)
  have hfollows : numberFollows text (k.pos + 1) = (number? true rest).isSome :=
    (numberFollows_eq hrest).trans Option.isSome_map.symm
  simp only [token, lexeme_minus, hfollows]
  cases startsOperand k.tokens with
  | false => exact finds_return hrest
  | true =>
    cases hnumber : number? true rest with
    | none => exact finds_return hrest
    | some result =>
      have hminus : At text k.pos (if true then '-' :: rest else rest) := h
      exact finds_scanNumber hminus hnumber

/-- A byte that is no mark begins a number or a word, or nothing. -/
theorem token_of_not_mark {b : Char} (hb : b ∉ marks) : token text k b =
    if b.isDigit || (b == '.' && numberFollows text k.pos) then scanNumber text k.pos
    else if b.isAlpha then scanWord text k.pos
    else slice text k.pos text.utf8ByteSize >>= fun after =>
      throw (.unexpectedChar k.pos (after.toList.head?.getD '?')) := by
  unfold token
  split <;> first | rfl | exact absurd (by decide) hb

/-- A character that is no sign is looked at in the same way from its first byte. -/
theorem finds_of_not_mark (h : At text k.pos (c :: rest)) {b : UInt8}
    (hb : b ∈ String.utf8EncodeChar c) (hc : c ∉ marks) :
    Finds text (token text k (Char.ofUInt8 b)) (lexeme (byteSize text.toList)
      (startsOperand k.tokens) (spaced text k.pos) c rest) := by
  have hmarks : Ascii fun c => c ∈ marks := fun c hc => lt_of_mem_marks (by simpa using hc)
  have hb' : Char.ofUInt8 b ∉ marks := by
    have hsame := hmarks.apply_byte hb
    simpa [hc] using hsame
  have hminus : c ≠ '-' := by
    rintro rfl
    exact hc (by decide)
  rw [token_of_not_mark hb', ascii_isDigit.apply_byte hb, ascii_isAlpha.apply_byte hb,
    (ascii_eq '.' (by decide)).apply_byte hb, lexeme, sign?_eq_none hc]
  -- The first character decides whether a number begins, unless it is a point.
  have hfollows : (c.isDigit || (c == '.' && numberFollows text k.pos)) =
      (number? false (c :: rest)).isSome := by
    rw [number?, Option.isSome_map, ← numberFollows_eq h, numberFollows,
      h.any_byte? ascii_isDigit, h.any_byte? (ascii_eq '.' (by decide))]
    cases hdigit : c.isDigit <;> cases hpoint : c == '.' <;> simp [hdigit, hpoint]
  simp only [if_neg hminus, hfollows]
  cases hnumber : number? false (c :: rest) with
  | some result =>
    have hplain : At text k.pos (if false then '-' :: c :: rest else c :: rest) := h
    exact finds_scanNumber hplain hnumber
  | none =>
    simp only [Option.isSome_none, Bool.false_eq_true, if_false]
    split
    · exact finds_scanWord h
    · have hall : At text k.pos (c :: rest ++ []) := by rwa [List.append_nil]
      have hpos := h.add_byteSize
      rw [slice_bind hall (.size text), String.toList_ofList, ← hpos, Nat.add_sub_cancel]
      exact finds_throw _

/-- The token that begins with a byte of a character is found. -/
theorem finds_token (h : At text k.pos (c :: rest)) {b : UInt8}
    (hb : b ∈ String.utf8EncodeChar c) :
    Finds text (token text k (Char.ofUInt8 b)) (lexeme (byteSize text.toList)
      (startsOperand k.tokens) (spaced text k.pos) c rest) := by
  by_cases hc : c ∈ marks
  · have hascii := lt_of_mem_marks hc
    rw [(Text.of_mem_utf8EncodeChar hb).resolve_right fun hlarge => by omega]
    cases hsign : sign? c rest with
    | some found =>
      rw [lexeme, hsign]
      exact finds_sign h hsign
    | none =>
      obtain rfl := eq_minus_of_sign? hc hsign
      exact finds_minus h _
  · exact finds_of_not_mark h hb hc

theorem iterate_nil (h : At text k.pos []) : iterate text k = return .inr k.tokens := by
  rw [iterate, h.byte?_nil]

theorem iterate_space (h : At text k.pos (c :: rest)) (hc : isSpace c = true) :
    iterate text k = return .inl ⟨k.pos + 1, k.tokens⟩ := by
  obtain ⟨b, hb, hbyte⟩ := h.exists_byte (Char.utf8Size_pos c)
  rw [Nat.add_zero] at hbyte
  rw [iterate, hbyte]
  exact if_pos ((ascii_isSpace.apply_byte hb).trans hc)

/-- One round finds the token or the fault that is found among the characters. -/
theorem iterate_token (h : At text k.pos (c :: rest)) (hc : isSpace c = false) :
    match lexeme (byteSize text.toList) (startsOperand k.tokens) (spaced text k.pos) c rest with
    | .ok (t, left) =>
      ∃ stop, iterate text k = pure (.inl ⟨stop, k.tokens ++ [t]⟩) ∧ At text stop left
    | .error fault => iterate text k = throw fault := by
  obtain ⟨b, hb, hbyte⟩ := h.exists_byte (Char.utf8Size_pos c)
  rw [Nat.add_zero] at hbyte
  have hspace : ¬ isSpace (Char.ofUInt8 b) = true := by simp [ascii_isSpace.apply_byte hb, hc]
  have hfinds := finds_token h hb
  simp only [iterate, hbyte]
  rw [if_neg hspace]
  split
  · rename_i t left hlexeme
    rw [hlexeme] at hfinds
    obtain ⟨stop, hwalk, hstop⟩ := hfinds
    exact ⟨stop, by rw [hwalk, pure_bind], hstop⟩
  · rename_i fault hlexeme
    rw [hlexeme] at hfinds
    rw [show token text k (Char.ofUInt8 b) = throw fault from hfinds]
    rfl

/-- The last character of a token is no white space. -/
theorem exists_last {size : Nat} {operand spaced : Bool} {t : Token}
    (h : lexeme size operand spaced c rest = .ok (t, left)) :
    ∃ u d, c :: rest = u ++ d :: left ∧ isSpace d = false := by
  obtain ⟨u, rfl, hw⟩ := exists_append_of_lexeme h
  obtain ⟨front, d, hlast⟩ := (List.eq_nil_or_concat' (c :: u)).resolve_left (List.cons_ne_nil _ _)
  refine ⟨front, d, by rw [← List.cons_append, hlast, List.append_assoc, List.singleton_append], ?_⟩
  by_contra hspace
  have hblank := isBlank_of_isSpace (Bool.not_eq_false _ ▸ hspace)
  rw [hw.not_isBlank d (by simp [hlast])] at hblank
  cases hblank

/-- White space stands in front of a position if the character there is one. -/
theorem spaced_eq (h : At text pos (c :: rest)) (h' : At text stop rest) :
    spaced text stop = isSpace c := by
  have hpos := Char.utf8Size_pos c
  have hstart := h.add_byteSize
  have hstop := h'.add_byteSize
  rw [Text.byteSize_cons] at hstart
  obtain rfl : stop = pos + c.utf8Size := by omega
  rw [spaced, h.any_byte?_before ascii_isSpace, decide_eq_true (by omega), Bool.true_and]

/-- Whether an operand may start depends on the last token. -/
theorem startsOperand_append (tokens : List Token) (t : Token) :
    startsOperand (tokens ++ [t]) = t.opensOperand := by
  simp [startsOperand]

/-- Behind a token a position has moved on, and no white space stands in front of it. -/
theorem of_lexeme {size : Nat} {operand before : Bool} {t : Token} (h : At text pos (c :: rest))
    (hlexeme : lexeme size operand before c rest = .ok (t, left)) (h' : At text stop left) :
    pos < stop ∧ spaced text stop = false := by
  obtain ⟨u, d, htext, hspace⟩ := exists_last hlexeme
  rw [htext] at h
  have hlast : At text (pos + byteSize u) (d :: left) := h.append
  have hpos := Char.utf8Size_pos d
  have hsize := hlast.add_byteSize
  have hsize' := h'.add_byteSize
  rw [Text.byteSize_cons] at hsize
  exact ⟨by omega, (spaced_eq hlast h').trans hspace⟩

/-- From a boundary on, the bytes are scanned as the characters are. -/
theorem scanFrom_at (h : At text k.pos rest) : (scanFrom text k).run =
    some ((Token.scanFrom (byteSize text.toList) (startsOperand k.tokens) (spaced text k.pos)
      rest).map (k.tokens ++ ·)) := by
  induction hlength : rest.length using Nat.strongRecOn generalizing rest k with
  | _ n ih =>
    subst hlength
    rw [scanFrom_eq]
    cases rest with
    | nil =>
      rw [iterate_nil h, pure_bind, Token.scanFrom]
      simp [Except.map]
    | cons c rest =>
      cases hc : isSpace c with
      | true =>
        have hnext : At text (k.pos + 1) rest := h.cons (ascii_isSpace c hc)
        have hrest := @ih _ (by simp) rest ⟨k.pos + 1, k.tokens⟩ hnext rfl
        rw [iterate_space h hc, pure_bind, hrest, spaced_eq h hnext, hc, Token.scanFrom, hc,
          if_pos rfl]
      | false =>
        have hstep := iterate_token h hc
        split at hstep
        · rename_i t left hlexeme
          obtain ⟨stop, hiterate, hstop⟩ := hstep
          have hshort := length_of_lexeme hlexeme
          have hrest := @ih _ (by simp; omega) left ⟨stop, k.tokens ++ [t]⟩ hstop rfl
          rw [hiterate, pure_bind, hrest, startsOperand_append, (of_lexeme h hlexeme hstop).2,
            scanFrom_cons hc hlexeme]
          cases Token.scanFrom _ t.opensOperand false left <;> simp [Except.map]
        · rename_i fault hlexeme
          rw [hstep, scanFrom_error hc hlexeme]
          rfl

/-- A text is scanned byte by byte as it is character by character. -/
theorem scan_eq (text : String) : (scan text).run = some (Token.scan text.toList) := by
  refine (scanFrom_at (k := ⟨0, []⟩) (.zero text)).trans (congrArg some ?_)
  change Except.map _ (Token.scan text.toList) = _
  cases Token.scan text.toList <;> rfl

/-- The cursors that a scan of a text comes to. -/
inductive Reached (text : String) : Cursor → Prop where
  | start : Reached text ⟨0, []⟩
  | next {k k' : Cursor} (h : Reached text k) (hnext : iterate text k = pure (.inl k')) :
    Reached text k'

/-- An iteration from a boundary moves on to another one, or it is the last. -/
theorem iterate_at (h : At text k.pos rest) :
    (∃ k' left, iterate text k = pure (.inl k') ∧ k.pos < k'.pos ∧ At text k'.pos left) ∨
      (∃ tokens, iterate text k = pure (.inr tokens)) ∨ ∃ fault, iterate text k = throw fault := by
  cases rest with
  | nil => exact .inr (.inl ⟨_, iterate_nil h⟩)
  | cons c rest =>
    cases hc : isSpace c with
    | true =>
      exact .inl ⟨_, rest, iterate_space h hc, Nat.lt_succ_self _, h.cons (ascii_isSpace c hc)⟩
    | false =>
      have hstep := iterate_token h hc
      split at hstep
      · rename_i t left hlexeme
        obtain ⟨stop, hiterate, hstop⟩ := hstep
        exact .inl ⟨_, left, hiterate, (of_lexeme h hlexeme hstop).1, hstop⟩
      · exact .inr (.inr ⟨_, hstep⟩)

/-- A scan only comes to boundaries. -/
theorem Reached.exists_at (h : Reached text k) : ∃ rest, At text k.pos rest := by
  induction h with
  | start => exact ⟨_, .zero text⟩
  | @next k k' h hnext ih =>
    obtain ⟨rest, hrest⟩ := ih
    obtain ⟨k'', left, hiterate, -, hleft⟩ | ⟨tokens, hiterate⟩ | ⟨fault, hiterate⟩ :=
      iterate_at hrest
    · obtain rfl : k'' = k' := by
        have hsame := hiterate.symm.trans hnext
        cases hsame
        rfl
      exact ⟨left, hleft⟩
    · cases hiterate.symm.trans hnext
    · cases hiterate.symm.trans hnext

/-- A text whose scan comes to a character that begins no token: the character stands at the
position that is reported, and the text in front of it is scanned on its own. -/
theorem exists_before {found : Char}
    (h : Token.scan text.toList = .error (.unexpectedChar pos found)) :
    ∃ before after : String, text = before ++ String.singleton found ++ after ∧
      before.utf8ByteSize = pos ∧ ∃ tokens, Token.scan before.toList = .ok tokens := by
  obtain ⟨before, after, htext, hpos, -, hscan⟩ := exists_before_unexpectedChar h
  refine ⟨.ofList before, .ofList after, ?_, ?_, ?_⟩
  · rw [← String.toList_inj, htext]
    simp
  · rw [Text.utf8ByteSize_eq, String.toList_ofList, hpos, htext, Text.byteSize_append,
      Nat.add_sub_cancel]
  · rw [String.toList_ofList]
    exact hscan _

/-- A scan over the bytes of any text comes to an end, slices the text at boundaries between
characters only, and finds the tokens that are found character by character. Every cursor that it
comes to is at a boundary, and moves on in an iteration unless that is the last. If a character
begins no token, it stands at the position that is reported, and the text in front of it is
scanned on its own. -/
theorem scan_safe (text : String) :
    (scan text).run = some (Token.scan text.toList) ∧
      (∀ k, Reached text k → Text.IsBoundary text k.pos ∧ k.pos ≤ text.utf8ByteSize ∧
        ((∃ k', iterate text k = pure (.inl k') ∧ k.pos < k'.pos) ∨
          (∃ tokens, iterate text k = pure (.inr tokens)) ∨
          ∃ fault, iterate text k = throw fault)) ∧
      ∀ pos found, Token.scan text.toList = .error (.unexpectedChar pos found) →
        ∃ before after : String, text = before ++ String.singleton found ++ after ∧
          before.utf8ByteSize = pos ∧ ∃ tokens, Token.scan before.toList = .ok tokens := by
  refine ⟨scan_eq text, fun k hk => ?_, fun pos found => exists_before⟩
  obtain ⟨rest, hrest⟩ := hk.exists_at
  have hsize := hrest.add_byteSize
  rw [← Text.utf8ByteSize_eq] at hsize
  refine ⟨hrest.isBoundary, by omega, ?_⟩
  exact (iterate_at hrest).imp_left fun ⟨k', _, hiterate, hlt, _⟩ => ⟨k', hiterate, hlt⟩

/-- A character of two bytes behind a sign. -/
theorem scan_safe_accent : ∃ before after : String, "+é" = before ++ "é" ++ after ∧
    before.utf8ByteSize = 1 ∧ ∃ tokens, Token.scan before.toList = .ok tokens := by
  have hscan : Token.scan "+é".toList = .error (.unexpectedChar 1 'é') := by
    have hsecond : Token.scanFrom 3 false false ['é'] = .error (.unexpectedChar 1 'é') :=
      scanFrom_error rfl rfl
    exact (scanFrom_cons rfl rfl).trans (congrArg _ hsecond)
  obtain ⟨-, -, hbefore⟩ := scan_safe "+é"
  exact hbefore 1 'é' hscan

end Walk

end Spreadsheet.Formula.Token
