import Spreadsheet.Proofs.Formula.Printing
import Spreadsheet.Proofs.Number.Code

/-!
# Rendering tokens

The scanner decides by what stands around a token: whether a minus sign begins a number depends on
the token in front of it, a word operator needs white space in front and a function name its
parenthesis behind. So not every sequence of tokens can come out of it. Those that can are rendered
with a space in front of every token but the parenthesis of a function, and what is rendered is
scanned into the same tokens, by whatever literals the numbers are written.

One lemma says of each kind of token that it is scanned where it is rendered, in front of a text
that goes on as rendered texts do; the context is then carried along the sequence.
-/

namespace Spreadsheet.Formula

/-- The sign of a number is the sign of its literals. -/
theorem Literal.Denotes.isNegative {l : Literal} {x : Float} (h : l.Denotes x) :
    Binary64.isNegative x = l.negative := by
  have hvalue := h.value
  simp only [Numeral.value?] at hvalue
  split at hvalue
  · rename_i hfinite
    obtain rfl := Option.some.inj hvalue
    have hle : Numeral.nearestScaled l.numeral.significand l.numeral.scale ≤
        Binary64.infinityCode := by
      simp only [Numeral.nearestScaled]
      repeat' split
      · exact Nat.zero_le _
      · exact Nat.le_refl _
      · exact Binary64.nearestCode_le _ _
      · exact Binary64.nearestCode_le _ _
    rcases Nat.lt_or_eq_of_le hle with hlt | heq
    · exact (Binary64.of_ofCode l.negative hlt).2.1
    · rw [heq] at hfinite
      cases hneg : l.negative <;> rw [hneg] at hfinite <;> exact absurd hfinite (by decide +kernel)
  · cases hvalue

namespace Token

/-- Whether a token is the name of a function. -/
def isUnary : Token → Bool
  | .unary _ => true
  | _ => false

/-- What may stand in front of other tokens. A negative literal needs a place where an operand is
due. -/
def Fits (operand : Bool) (t : Token) (rest : List Token) : Prop :=
  match t with
  | .number x => ∃ l : Literal, l.Denotes x ∧ (l.negative = true → operand = true)
  | .cell name => IsName name
  | .unary _ => rest.head? = some .leftParen
  | _ => True

/-- Every token may stand where it stands. `operand` says that an operand is due at the start. -/
inductive WellFormed : Bool → List Token → Prop where
  | nil (operand : Bool) : WellFormed operand []
  | cons {operand : Bool} {t : Token} {rest : List Token} (ht : t.Fits operand rest)
    (h : WellFormed t.opensOperand rest) : WellFormed operand (t :: rest)

/-- Tokens as they are rendered: each as it is written, with a space in front of it, but none in
front of the parenthesis of a function. `attached` says that the name of one stands in front. -/
inductive Rendered : Bool → List Token → List Char → Prop where
  | nil (attached : Bool) : Rendered attached [] []
  | cons {t : Token} {u text : List Char} {rest : List Token} (hw : t.Written u)
    (h : Rendered t.isUnary rest text) : Rendered false (t :: rest) (' ' :: (u ++ text))
  | paren {text : List Char} {rest : List Token} (h : Rendered false rest text) :
    Rendered true (.leftParen :: rest) ('(' :: text)

variable {size : Nat} {operand spaced attached negative : Bool} {c : Char} {t : Token} {f : Unary}
  {u text left : List Char} {tokens rest : List Token}

/-- A text goes on as a rendered one does. -/
def GoesOn (attached : Bool) (text : List Char) : Prop :=
  text = [] ∨ ∃ rest, text = (if attached then '(' else ' ') :: rest

/-- Rendered text goes on as its tokens may. -/
theorem Rendered.goesOn (h : Rendered attached tokens text) : GoesOn attached text := by
  cases h with
  | nil => exact .inl rfl
  | cons => exact .inr ⟨_, rfl⟩
  | paren => exact .inr ⟨_, rfl⟩

/-- Where the text may go on a word has ended. -/
theorem GoesOn.delimited (h : GoesOn attached text) : Delimited text := by
  rcases h with rfl | ⟨rest, rfl⟩
  · intro c hc
    cases hc
  · cases attached <;> exact delimited_cons rfl

theorem GoesOn.not_isAlpha (h : GoesOn attached text) : ∀ c ∈ text.head?, c.isAlpha = false := by
  intro c hc
  by_contra halpha
  have hword := h.delimited c hc
  rw [isWordChar_of_isAlpha (Bool.not_eq_false _ ▸ halpha)] at hword
  cases hword

/-- A literal is scanned as its number, with its sign where an operand may start. -/
theorem scanFrom_literal {l : Literal} {x : Float} (h : l.Denotes x)
    (hminus : l.negative = true → operand = true) (hleft : Delimited left) :
    scanFrom size operand spaced (l.text ++ left) =
      (scanFrom size false false left).map (.number x :: ·) := by
  have hvalue := h.value
  cases hneg : l.negative with
  | false =>
    rw [hneg] at hvalue
    rw [Literal.text, hneg, if_neg Bool.false_ne_true]
    exact scanFrom_numeral h.wellFormed hvalue hleft
  | true =>
    rw [hneg] at hvalue
    rw [Literal.text, hneg, if_pos rfl, List.cons_append]
    have hlexeme : lexeme size operand spaced '-' (l.numeral.text ++ left) =
        .ok (.number x, left) := by
      rw [lexeme_minus, if_pos (hminus hneg), number?_append h.wellFormed hvalue hleft]
    exact scanFrom_cons rfl hlexeme

theorem scanFrom_name {name : String} (h : IsName name) (hleft : Delimited left) :
    scanFrom size operand spaced (name.toList ++ left) =
      (scanFrom size false false left).map (.cell name :: ·) := by
  have hword : word spaced (name.toList ++ left) = .ok (.cell name, left) := word_name h hleft
  obtain ⟨c, cs, hname, hc⟩ := h.exists_cons
  rw [hname, List.cons_append] at hword ⊢
  exact scanFrom_word hc hword

/-- An operator is scanned where a space stands before it and the text may go on. -/
theorem scanFrom_sign (op : Operator) (hleft : GoesOn false left) :
    scanFrom size operand true (op.spelling.toList ++ left) =
      (scanFrom size (opensOperand (.operator op)) false left).map (.operator op :: ·) := by
  match op with
  | .product .quotient =>
    exact scanFrom_word rfl (word_letters ['d', 'i', 'v'] rfl rfl hleft.not_isAlpha)
  | .product .remainder =>
    exact scanFrom_word rfl (word_letters ['m', 'o', 'd'] rfl rfl hleft.not_isAlpha)
  | .sum .add | .product .multiply | .product .divide | .comparison .equal
  | .comparison .notEqual | .comparison .lessEqual | .comparison .greaterEqual =>
    exact scanFrom_cons rfl rfl
  | .sum .subtract | .comparison .less | .comparison .greater =>
    rcases hleft with rfl | ⟨rest, rfl⟩ <;> cases operand <;> exact scanFrom_cons rfl rfl

/-- The name of a function is scanned where a parenthesis follows. -/
theorem scanFrom_unary (f : Unary) :
    scanFrom size operand spaced (f.spelling.toList ++ '(' :: left) =
      (scanFrom size false false ('(' :: left)).map (.unary f :: ·) := by
  have hparen : ∀ c ∈ ('(' :: left).head?, c.isAlpha = false := by
    intro c hc
    obtain rfl : '(' = c := Option.some.inj hc
    rfl
  cases f with
  | increment => exact scanFrom_word rfl (word_letters ['i', 'n', 'c'] rfl rfl hparen)
  | decrement => exact scanFrom_word rfl (word_letters ['d', 'e', 'c'] rfl rfl hparen)

theorem scanFrom_leftParen :
    scanFrom size operand spaced ('(' :: left) =
      (scanFrom size true false left).map (.leftParen :: ·) := scanFrom_cons rfl rfl

/-- A token behind a space is scanned as it is written, in front of a text that is rendered. -/
theorem scanFrom_written (hw : t.Written u) (ht : t.Fits operand rest)
    (hr : Rendered t.isUnary rest text) :
    scanFrom size operand true (u ++ text) =
      (scanFrom size t.opensOperand false text).map (t :: ·) := by
  cases hw with
  | number hl =>
    obtain ⟨l, hl', hminus⟩ := ht
    have hsign := hl'.isNegative.symm.trans hl.isNegative
    exact scanFrom_literal hl (fun hneg => hminus (hsign.trans hneg)) hr.goesOn.delimited
  | cell hname => exact scanFrom_name hname hr.goesOn.delimited
  | operator op => exact scanFrom_sign op hr.goesOn
  | unary f =>
    cases hr with
    | nil => cases ht
    | paren h => exact scanFrom_unary f
  | leftParen => exact scanFrom_leftParen
  | rightParen => exact scanFrom_cons rfl rfl

/-- Rendered tokens are scanned back. -/
theorem scanFrom_rendered (h : Rendered attached tokens text) (hwell : WellFormed operand tokens) :
    scanFrom size operand spaced text = .ok tokens := by
  induction h generalizing operand spaced with
  | nil attached => rw [scanFrom]
  | cons hw h ih =>
    cases hwell with
    | cons ht hwell =>
      rw [scanFrom_blank rfl, scanFrom_written hw ht h, ih hwell]
      rfl
  | paren h ih =>
    cases hwell with
    | cons ht hwell =>
      have hinside : WellFormed true _ := hwell
      rw [scanFrom_leftParen, ih hinside]
      rfl

theorem head?_of_functionName {g : Unary}
    (h : functionName g text = .ok (.unary f, left)) : left.head? = some '(' := by
  rw [functionName] at h
  split at h
  · rename_i hhead
    cases h
    exact hhead
  · cases h

theorem wordOperator_ne_unary (spaced : Bool) (op : ProductOp) (text : List Char) :
    wordOperator spaced op text ≠ .ok (.unary f, left) := by
  rw [wordOperator]
  split <;> rintro ⟨⟩

/-- A word that is a function is followed by a parenthesis. -/
theorem head?_of_word (h : word spaced text = .ok (.unary f, left)) : left.head? = some '(' := by
  simp only [word] at h
  split at h
  · cases h
  · split at h
    · exact absurd h (wordOperator_ne_unary _ _ _)
    · split at h
      · exact absurd h (wordOperator_ne_unary _ _ _)
      · split at h
        · exact head?_of_functionName h
        · split at h
          · exact head?_of_functionName h
          · cases h

theorem sign?_ne_unary (c : Char) (text : List Char) : sign? c text ≠ some (.unary f, left) := by
  unfold sign?
  split <;> rintro ⟨⟩

theorem number?_ne_unary (negative : Bool) (text : List Char) :
    number? negative text ≠ some (.ok (.unary f, left)) := by
  intro h
  obtain ⟨_, _, _, ht, _⟩ := exists_literal_of_number? h
  cases ht

/-- The name of a function is scanned with its parenthesis behind it. -/
theorem head?_of_lexeme (h : lexeme size operand spaced c text = .ok (.unary f, left)) :
    left.head? = some '(' := by
  unfold lexeme at h
  split at h
  · rename_i found hsign
    cases h
    exact absurd hsign (sign?_ne_unary c text)
  · split at h
    · split at h
      · rename_i result hnumber
        subst h
        split at hnumber
        · exact absurd hnumber (number?_ne_unary true text)
        · cases hnumber
      · cases h
    · split at h
      · rename_i result hnumber
        subst h
        exact absurd hnumber (number?_ne_unary false _)
      · split at h
        · exact head?_of_word h
        · cases h

/-- A parenthesis at the head of a text is the first token. -/
theorem head?_of_scanFrom (hleft : left.head? = some '(')
    (h : scanFrom size operand spaced left = .ok rest) : rest.head? = some .leftParen := by
  obtain ⟨left, rfl⟩ := List.head?_eq_some_iff.mp hleft
  rw [scanFrom_leftParen] at h
  cases hscan : scanFrom size true false left with
  | error fault => simp [hscan, Except.map] at h
  | ok others =>
    obtain rfl : .leftParen :: others = rest := by simpa [hscan, Except.map] using h
    rfl

/-- What is scanned is well formed. -/
theorem wellFormed_of_scanFrom (h : scanFrom size operand spaced text = .ok tokens) :
    WellFormed operand tokens := by
  fun_induction scanFrom size operand spaced text generalizing tokens with
  | case1 operand spaced =>
    cases h
    exact .nil operand
  | case2 operand spaced c rest hspace ih => exact ih h
  | case3 => cases h
  | case4 operand spaced c rest hspace t left hlexeme ih =>
    cases hrest : scanFrom size t.opensOperand false left with
    | error fault => simp [hrest, Except.map] at h
    | ok others =>
      obtain rfl : t :: others = tokens := by simpa [hrest, Except.map] using h
      refine .cons ?_ (ih hrest)
      obtain ⟨u, _, hwritten, hminus⟩ := exists_written_of_lexeme hlexeme
      cases hwritten with
      | @number l x hl =>
        refine ⟨l, hl, fun hneg => ?_⟩
        have hhead : l.text.head? = some '-' := by rw [Literal.text, if_pos hneg]; rfl
        exact (hminus hhead).resolve_left (by simp)
      | cell hname => exact hname
      | unary f => exact head?_of_scanFrom (head?_of_lexeme hlexeme) hrest
      | operator | leftParen | rightParen => exact trivial

/-- Every token that fits in its place can be written. -/
theorem exists_written (ht : t.Fits operand rest) : ∃ u, t.Written u := by
  cases t with
  | number x =>
    obtain ⟨l, hl, _⟩ := ht
    exact ⟨_, .number hl⟩
  | cell name => exact ⟨_, .cell ht⟩
  | operator op => exact ⟨_, .operator op⟩
  | unary f => exact ⟨_, .unary f⟩
  | leftParen => exact ⟨_, .leftParen⟩
  | rightParen => exact ⟨_, .rightParen⟩

/-- Well-formed tokens can be rendered. -/
theorem WellFormed.exists_rendered (h : WellFormed operand tokens)
    (hattached : attached = true → tokens.head? = some .leftParen) :
    ∃ text, Rendered attached tokens text := by
  induction h generalizing attached with
  | nil operand => exact ⟨[], .nil attached⟩
  | @cons operand t rest ht h ih =>
    cases attached with
    | true =>
      obtain rfl : t = .leftParen := Option.some.inj (hattached rfl)
      obtain ⟨text, htext⟩ := @ih false (by simp)
      exact ⟨_, .paren htext⟩
    | false =>
      obtain ⟨u, hu⟩ := exists_written ht
      have hparen : t.isUnary = true → rest.head? = some .leftParen := by
        cases t with
        | unary f => exact fun _ => ht
        | number | cell | operator | leftParen | rightParen => exact fun hunary => by cases hunary
      obtain ⟨text, htext⟩ := ih hparen
      exact ⟨_, .cons hu htext⟩

/-- What follows in a well-formed list of tokens is well-formed. -/
theorem WellFormed.of_append {read : List Token} (h : WellFormed operand (read ++ rest)) :
    ∃ operand', WellFormed operand' rest := by
  induction read generalizing operand with
  | nil => exact ⟨operand, h⟩
  | cons t read ih =>
    cases h with
    | cons _ h => exact ih h

end Token

namespace Reading

variable {r : Reading} {t : Token} {f : Unary} {level : Level} {openings : List Opening}

/-- A parenthesis is due only behind the name of a function. -/
theorem eq_unary_of_next (h : r.next t = .ok (.function f level openings)) : t = .unary f := by
  unfold next at h
  split at h
  case h_3 => cases h; rfl
  case h_6 e level' openings' op =>
    cases hpush : level'.push e op with
    | error fault => simp [hpush, Except.map] at h
    | ok waiting => simp [hpush, Except.map] at h
  all_goals cases h

/-- A reading waits for a parenthesis behind the name of a function only. -/
theorem eq_unary_of_foldlM {read : List Token}
    (h : read.foldlM next .start = .ok (.function f level openings)) :
    ∃ before, read = before ++ [.unary f] := by
  rcases List.eq_nil_or_concat' read with rfl | ⟨before, t, rfl⟩
  · cases h
  · cases hbefore : before.foldlM next .start with
    | error fault => simp [hbefore, bind, Except.bind] at h
    | ok r =>
      rw [foldlM_append_of_ok hbefore, List.foldlM_cons] at h
      simp only [List.foldlM_nil, bind_pure] at h
      rw [eq_unary_of_next h]
      exact ⟨before, rfl⟩

end Reading

namespace Token

/-- Well-formed tokens can be rendered, and they are scanned from every text that they are rendered
as. What is scanned from any text is well formed, so it is scanned again from what it is rendered
as, and while it is read a parenthesis is due only where one stands. -/
theorem scan_rendered :
    (∀ tokens, WellFormed true tokens → (∃ text, Rendered false tokens text) ∧
      ∀ text, Rendered false tokens text → scan text = .ok tokens) ∧
    ∀ body tokens, scan body = .ok tokens → WellFormed true tokens ∧
      ∀ read left f level openings, tokens = read ++ left →
        read.foldlM Reading.next .start = .ok (.function f level openings) →
        left.head? = some .leftParen := by
  refine ⟨fun tokens hwell => ⟨hwell.exists_rendered (by simp), fun text htext => ?_⟩,
    fun body tokens hscan => ⟨wellFormed_of_scanFrom hscan, ?_⟩⟩
  · exact scanFrom_rendered htext hwell
  · rintro read left f level openings rfl hread
    obtain ⟨before, rfl⟩ := Reading.eq_unary_of_foldlM hread
    have hwell := wellFormed_of_scanFrom hscan
    rw [List.append_assoc] at hwell
    obtain ⟨_, hwell⟩ := hwell.of_append
    cases hwell with
    | cons ht _ => exact ht

/-- A function of a negative literal, a word operator and a sign that could begin a longer one. -/
theorem scan_rendered_call :
    let tokens : List Token := [.unary .increment, .leftParen, .number (-5), .rightParen,
      .operator (.product .remainder), .cell "A1", .operator (.comparison .less), .number 2.5]
    WellFormed true tokens ∧ Rendered false tokens " inc( -5 ) mod A1 < 2.5".toList ∧
      scan " inc( -5 ) mod A1 < 2.5".toList = .ok tokens := by
  intro tokens
  have hname : IsName "A1" := ⟨['A'], ['1'], by decide⟩
  have hfive : Literal.Denotes ⟨true, ⟨['5'], none, none⟩⟩ (-5) :=
    ⟨⟨rfl, rfl, by decide, by simp⟩, by decide +kernel⟩
  have hhalf : Literal.Denotes ⟨false, ⟨['2'], some ['5'], none⟩⟩ 2.5 :=
    ⟨⟨rfl, rfl, by decide, by simp⟩, by decide +kernel⟩
  have hwell : WellFormed true tokens :=
    .cons rfl (.cons trivial (.cons ⟨_, hfive, fun _ => rfl⟩ (.cons trivial (.cons trivial
      (.cons hname (.cons trivial (.cons ⟨_, hhalf, by simp⟩ (.nil _))))))))
  have hrendered : Rendered false tokens " inc( -5 ) mod A1 < 2.5".toList :=
    .cons (.unary .increment) (.paren (.cons (.number hfive) (.cons .rightParen
      (.cons (.operator (.product .remainder)) (.cons (.cell hname)
        (.cons (.operator (.comparison .less)) (.cons (.number hhalf) (.nil false))))))))
  exact ⟨hwell, hrendered, (scan_rendered.1 tokens hwell).2 _ hrendered⟩

end Token

end Spreadsheet.Formula
