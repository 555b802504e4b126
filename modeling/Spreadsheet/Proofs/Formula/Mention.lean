import Spreadsheet.Formula.Evaluation
import Spreadsheet.Proofs.Formula.Search

/-!
# The cells that a readable formula mentions

References are found in the raw text, the tree's cell names come from its tokens. Every token is
a part of the text that the search for references does not cut, and what it finds there is the
token's own name, if the token is a cell name, or the exponent of a number. So a formula that can
be read mentions the cells in its tree, and besides them only what its exponents are taken for.
The parser keeps the names in order.
-/

namespace Spreadsheet

namespace Numeral

/-- The digits and the point of a numeral, without its exponent. -/
def mantissa (n : Numeral) : List Char := n.whole ++ (n.fraction.map ('.' :: ·)).getD []

theorem text_eq (n : Numeral) :
    n.text = n.mantissa ++ (n.exponent.map Exponent.text).getD [] := rfl

/-- What scanning finds out about an exponent: the mark is one of two, a sign likewise, and the
digits are all that there are. -/
theorem Exponent.of_scan {cs left : List Char} {e : Exponent}
    (h : Exponent.scan cs = some (e, left)) :
    (e.mark = 'e' ∨ e.mark = 'E') ∧ (∀ c ∈ e.sign, c = '+' ∨ c = '-') ∧ e.digits ≠ [] ∧
      e.digits.all Char.isDigit = true ∧ left.takeWhile Char.isDigit = [] := by
  unfold Exponent.scan at h
  split at h
  · simp at h
  · rename_i mark rest
    split at h
    · rename_i hmark
      split at h
      rename_i sign after hsign
      simp only at h
      split at h
      · simp at h
      · rename_i hdigits
        simp only [Option.some.injEq, Prod.mk.injEq] at h
        obtain ⟨rfl, rfl⟩ := h
        refine ⟨hmark, ?_, hdigits, List.all_takeWhile,
          List.takeWhile_eq_nil_iff.mpr (List.dropWhile_get_zero_not _ _)⟩
        split at hsign
        · split at hsign
          · rename_i hc
            cases hsign
            simpa using hc
          · cases hsign
            simp
        · cases hsign
          simp
    · simp at h

theorem exponent_of_scan {cs left : List Char} {n : Numeral} (h : scan cs = some (n, left))
    {e : Exponent} (he : n.exponent = some e) : ∃ cs', Exponent.scan cs' = some (e, left) := by
  simp only [scan] at h
  split at h
  · simp at h
  · split at h
    · rename_i e' rest hscan
      simp only [Option.some.injEq, Prod.mk.injEq] at h
      obtain ⟨rfl, rfl⟩ := h
      cases he
      exact ⟨_, hscan⟩
    · simp only [Option.some.injEq, Prod.mk.injEq] at h
      obtain ⟨rfl, rfl⟩ := h
      cases he

/-- A fraction consists of digits behind the point. -/
theorem scanFraction_digits (cs : List Char) :
    ∀ c ∈ ((scanFraction cs).1.map ('.' :: ·)).getD [], c.isDigit = true ∨ c = '.' := by
  intro c hc
  unfold scanFraction at hc
  split at hc
  · rcases List.mem_cons.mp hc with rfl | hc
    · exact .inr rfl
    · exact .inl (List.mem_takeWhile_imp hc)
  · simp at hc

/-- A scanned numeral has a digit or a point in front of its exponent, and nothing else. -/
theorem mantissa_of_scan {cs left : List Char} {n : Numeral} (h : scan cs = some (n, left)) :
    n.mantissa ≠ [] ∧ ∀ c ∈ n.mantissa, c.isDigit = true ∨ c = '.' := by
  obtain ⟨hwhole, hfraction⟩ : n.whole = (takeDigits cs).1 ∧
      n.fraction = (scanFraction (takeDigits cs).2).1 := by
    simp only [scan] at h
    split at h
    · simp at h
    · split at h <;>
        · simp only [Option.some.injEq, Prod.mk.injEq] at h
          obtain ⟨rfl, rfl⟩ := h
          exact ⟨rfl, rfl⟩
  constructor
  · intro hnil
    obtain ⟨hw, hf⟩ := List.append_eq_nil_iff.mp hnil
    simp only [scan] at h
    split at h
    · simp at h
    · rename_i hdigits
      refine hdigits ⟨hwhole ▸ hw, ?_⟩
      rw [← hfraction]
      cases hn : n.fraction with
      | none => rfl
      | some digits => simp [hn] at hf
  · intro c hc
    rw [mantissa, hwhole, hfraction] at hc
    rcases List.mem_append.mp hc with hc | hc
    · exact .inl (List.mem_takeWhile_imp hc)
    · exact scanFraction_digits _ c hc

end Numeral

namespace Formula

namespace Token

/-- The cell name that a token is, if it is one. -/
def names : Token → List String
  | .cell name => [name]
  | _ => []

/-- A part read off the head of a text, as a token. The search finds what it finds in the part
and then what it finds in the rest; in the part it finds the token's name, if the token is a cell
name, and otherwise at most an exponent. -/
structure Reads (t : Token) (text left : List Char) : Prop where
  /-- The rest ends the text. -/
  suffix : left <:+ text
  /-- What the search finds in the part. -/
  found : ∃ found, cellNames text = found ++ cellNames left ∧ t.names ⊆ found ∧
    ∀ name ∈ found, name ∈ t.names ∨ HasExponent text name

/-- A part without capital letters is no cell name, and nothing is found in it. -/
theorem Reads.of_not_isUpper {t : Token} {u left : List Char} (ht : t.names = [])
    (h : u.any Char.isUpper = false) : Reads t (u ++ left) left where
  suffix := List.suffix_append u left
  found := by
    have hupper : ∀ c ∈ u, c.isUpper = false := fun c hc => by
      simpa using List.any_eq_false.mp h c hc
    exact ⟨[], cellNames_append_of_not_isUpper hupper, by simp [ht], by simp⟩

theorem Reads.of_sign {c : Char} {rest left : List Char} {t : Token}
    (h : sign? c rest = some (t, left)) : Reads t (c :: rest) left := by
  unfold sign? at h
  split at h <;> simp only [Option.some.injEq, Prod.mk.injEq, reduceCtorEq] at h <;>
    obtain ⟨rfl, rfl⟩ := h
  case h_7 | h_8 | h_10 =>
    -- These are the signs of two characters.
    exact .of_not_isUpper (u := [_, _]) rfl rfl
  all_goals exact .of_not_isUpper (u := [_]) rfl rfl

/-- The search finds nothing in an exponent, or its mark and digits if it is written like a name. -/
theorem cellNames_exponent_append {cs left : List Char} {e : Numeral.Exponent}
    (h : Numeral.Exponent.scan cs = some (e, left)) :
    cellNames (e.text ++ left) = cellNames left ∨ e.text = 'E' :: e.digits ∧
      cellNames (e.text ++ left) = String.ofList ('E' :: e.digits) :: cellNames left := by
  obtain ⟨hmark, hsign, hdigits, hall, hleft⟩ := Numeral.Exponent.of_scan h
  have hafter : cellNames (e.digits ++ left) = cellNames left :=
    cellNames_append_of_not_isUpper fun c hc =>
      not_isUpper_of_isDigit (List.all_eq_true.mp hall c hc)
  rw [Numeral.Exponent.text, List.cons_append, List.append_assoc]
  cases hs : e.sign with
  | some c =>
    -- A sign keeps the mark apart from the digits.
    have hc : c.isUpper = false ∧ c.isDigit = false := by
      rcases hsign c hs with rfl | rfl <;> decide
    rw [Option.toList_some, List.singleton_append]
    rcases hmark with hmark | hmark
    · exact .inl (by rw [hmark, cellNames_cons rfl, cellNames_cons hc.1, hafter])
    · exact .inl (by rw [hmark, cellNames_letter_append rfl hc.1 hc.2, hafter])
  | none =>
    rw [Option.toList_none, List.nil_append, List.nil_append]
    rcases hmark with hmark | hmark
    · exact .inl (by rw [hmark, cellNames_cons rfl, hafter])
    · exact .inr ⟨by rw [hmark], by rw [hmark, cellNames_exponent hdigits hall hleft]⟩

/-- What is found in a numeral is its exponent, if it is written like a name. -/
theorem Reads.of_numeral {text left : List Char} {n : Numeral} {x : Float}
    (h : Numeral.scan text = some (n, left)) : Reads (.number x) text left := by
  obtain ⟨hne, hmantissa⟩ := Numeral.mantissa_of_scan h
  have hupper : ∀ c ∈ n.mantissa, c.isUpper = false := by
    intro c hc
    rcases hmantissa c hc with hdigit | rfl
    · exact not_isUpper_of_isDigit hdigit
    · rfl
  obtain rfl := Numeral.text_append_of_scan h
  rw [Numeral.text_eq]
  cases he : n.exponent with
  | none =>
    rw [Option.map_none, Option.getD_none, List.append_nil]
    exact .of_not_isUpper rfl (List.any_eq_false.mpr fun c hc => by simp [hupper c hc])
  | some e =>
    obtain ⟨cs, hscan⟩ := Numeral.exponent_of_scan h he
    obtain ⟨_, _, hdigits, hall, hleft⟩ := Numeral.Exponent.of_scan hscan
    refine ⟨List.suffix_append _ left, ?_⟩
    rw [Option.map_some, Option.getD_some, List.append_assoc,
      cellNames_append_of_not_isUpper hupper]
    rcases cellNames_exponent_append hscan with hnone | ⟨htext, hname⟩
    · exact ⟨[], hnone, List.nil_subset _, by simp⟩
    · refine ⟨[_], hname, List.nil_subset _, fun name hfound => .inr ?_⟩
      obtain rfl := List.mem_singleton.mp hfound
      obtain ⟨before, point, hlast⟩ := (List.eq_nil_or_concat n.mantissa).resolve_left hne
      refine ⟨before, point, e.digits, left, ?_, ?_, hdigits, hall, hleft, rfl⟩
      · rw [hlast, htext]
        simp
      · exact hmantissa point (by simp [hlast])

/-- What a number mentions is written like a name in its exponent. -/
theorem Reads.of_number {negative : Bool} {text left : List Char} {t : Token}
    (h : number? negative text = some (.ok (t, left))) : Reads t text left := by
  simp only [number?, Option.map_eq_some_iff] at h
  obtain ⟨⟨n, rest⟩, hs, hn⟩ := h
  simp only at hn
  split at hn
  · simp only [Except.ok.injEq, Prod.mk.injEq] at hn
    obtain ⟨rfl, rfl⟩ := hn
    exact .of_numeral hs
  · simp at hn

/-- A character that is no capital letter may stand in front. -/
theorem Reads.cons {c : Char} {text left : List Char} {t : Token} (hc : c.isUpper = false)
    (h : Reads t text left) : Reads t (c :: text) left := by
  obtain ⟨found, hfound, hnames, hothers⟩ := h.found
  refine ⟨h.suffix.trans (List.suffix_cons c text), found, ?_, hnames, fun name hname => ?_⟩
  · rw [cellNames_cons hc, hfound]
  · exact (hothers name hname).imp_right fun hexponent => hexponent.append [c]

/-- A word is a cell name, or it is spelt with small letters. -/
theorem Reads.of_word {spaced : Bool} {c : Char} {rest left : List Char} {t : Token}
    (hc : c.isAlpha = true) (h : word spaced (c :: rest) = .ok (t, left)) :
    Reads t (c :: rest) left := by
  have htext : (c :: rest).takeWhile Char.isAlpha ++ (c :: rest).dropWhile Char.isAlpha =
      c :: rest := List.takeWhile_append_dropWhile
  have hletters : (c :: rest).takeWhile Char.isAlpha ≠ [] := by
    rw [List.takeWhile_cons_of_pos hc]
    exact List.cons_ne_nil _ _
  simp only [word] at h
  generalize (c :: rest).takeWhile Char.isAlpha = letters at h htext hletters
  generalize (c :: rest).dropWhile Char.isAlpha = after at h htext
  rw [← htext]
  split at h
  · rename_i hname
    simp only [Except.ok.injEq, Prod.mk.injEq] at h
    obtain ⟨rfl, rfl⟩ := h
    have hafter : after.takeWhile Char.isDigit ++ after.dropWhile Char.isDigit = after :=
      List.takeWhile_append_dropWhile
    have hleft : (after.dropWhile Char.isDigit).takeWhile Char.isDigit = [] :=
      List.takeWhile_eq_nil_iff.mpr (List.dropWhile_get_zero_not _ _)
    refine ⟨(List.dropWhile_suffix _).trans (List.suffix_append letters after), _, ?_,
      List.Subset.refl _, fun name hname => .inl hname⟩
    have hnames := cellNames_append_name hletters hname.1 hname.2 List.all_takeWhile hleft
    rw [hafter] at hnames
    exact hnames
  · have hword : ∀ small : List Char, letters = small → small.any Char.isUpper = false →
        t.names = [] → left = after → Reads t (letters ++ after) left := by
      rintro small rfl hsmall ht rfl
      exact .of_not_isUpper ht hsmall
    simp only [wordOperator, functionName] at h
    repeat' split at h
    all_goals first
      | (simp at h; done)
      | (rename_i hsmall _
         simp only [Except.ok.injEq, Prod.mk.injEq] at h
         obtain ⟨rfl, rfl⟩ := h
         exact hword _ hsmall rfl rfl rfl)

/-- Each token is a part read off the head of the text. -/
theorem Reads.of_lexeme {size : Nat} {operand spaced : Bool} {c : Char}
    {rest left : List Char} {t : Token} (h : lexeme size operand spaced c rest = .ok (t, left)) :
    Reads t (c :: rest) left := by
  unfold lexeme at h
  split at h
  · rename_i found hs
    cases h
    exact .of_sign hs
  · split at h
    · rename_i hminus
      subst hminus
      split at h
      · rename_i result hn
        subst h
        split at hn
        · exact (Reads.of_number hn).cons rfl
        · simp at hn
      · cases h
        exact .of_not_isUpper (u := ['-']) rfl rfl
    · split at h
      · rename_i result hn
        subst h
        exact .of_number hn
      · split at h
        · rename_i halpha
          exact .of_word halpha h
        · simp at h

/-- The search finds the cell names among the tokens of a text, and besides them at most
exponents. -/
theorem names_scanFrom {size : Nat} {operand spaced : Bool} {text : List Char}
    {tokens : List Token} (h : scanFrom size operand spaced text = .ok tokens) :
    tokens.flatMap names ⊆ cellNames text ∧
      ∀ name ∈ cellNames text, name ∈ tokens.flatMap names ∨ HasExponent text name := by
  fun_induction scanFrom size operand spaced text generalizing tokens with
  | case1 =>
    cases h
    simp [cellNames]
  | case2 operand spaced c rest hspace ih =>
    have hup : c.isUpper = false := by
      by_contra hup
      simp only [isSpace, Bool.or_eq_true, beq_iff_eq] at hspace
      rcases hspace with (((rfl | rfl) | rfl) | rfl) | rfl <;> exact hup rfl
    obtain ⟨hnames, hothers⟩ := ih h
    rw [cellNames_cons hup]
    exact ⟨hnames, fun name hname => (hothers name hname).imp_right (·.append [c])⟩
  | case3 => simp at h
  | case4 operand spaced c rest hspace t left hlexeme ih =>
    have hreads := Reads.of_lexeme hlexeme
    obtain ⟨u, hu⟩ := hreads.suffix
    obtain ⟨found, hfound, hown, hexponents⟩ := hreads.found
    cases hrest : scanFrom size t.opensOperand false left with
    | error fault => simp [hrest, Except.map] at h
    | ok others =>
      obtain rfl : t :: others = tokens := by simpa [hrest, Except.map] using h
      obtain ⟨hnames, hothers⟩ := ih hrest
      rw [hfound, List.flatMap_cons]
      refine ⟨List.append_subset.mpr ⟨List.subset_append_of_subset_left _ hown,
        List.subset_append_of_subset_right _ hnames⟩, fun name hname => ?_⟩
      rcases List.mem_append.mp hname with hname | hname
      · exact (hexponents name hname).imp_left (List.mem_append_left _)
      · refine (hothers name hname).imp (List.mem_append_right _) fun hexponent => ?_
        rw [← hu]
        exact hexponent.append u

end Token

namespace Level

/-- The names in the operands that wait, from left to right. -/
def names (level : Level) : List String :=
  (level.comparison.map (·.1.names)).getD [] ++ (level.sum.map (·.1.names)).getD [] ++
    (level.product.map (·.1.names)).getD []

/-- The names of a level that is closed are those that waited and those of the last operand. -/
theorem names_close (level : Level) (e : Expr) :
    (level.close e).names = level.names ++ e.names := by
  rcases level with ⟨comparison, sum, product⟩
  cases comparison <;> cases sum <;> cases product <;>
    simp [close, closeSum, closeProduct, names, Expr.names]

theorem names_push {level waiting : Level} {e : Expr} {op : Operator}
    (h : level.push e op = .ok waiting) : waiting.names = level.names ++ e.names := by
  rcases level with ⟨comparison, sum, product⟩
  cases op with
  | product op =>
    cases h
    cases product <;> simp [names, closeProduct, Expr.names]
  | sum op =>
    cases h
    cases sum <;> cases product <;> simp [names, closeSum, closeProduct, Expr.names]
  | comparison op =>
    cases comparison with
    | some left => simp [push] at h
    | none =>
      cases h
      cases sum <;> cases product <;> simp [names, closeSum, closeProduct, Expr.names]

end Level

/-- The names outside the open parentheses, from left to right. -/
def Opening.outerNames : List Opening → List String
  | [] => []
  | o :: openings => outerNames openings ++ o.around.names

namespace Reading

/-- The names read so far, from left to right. -/
def names : Reading → List String
  | .operand level openings => Opening.outerNames openings ++ level.names
  | .function _ level openings => Opening.outerNames openings ++ level.names
  | .operator e level openings => Opening.outerNames openings ++ level.names ++ e.names

/-- A token adds its own name and loses none. -/
theorem names_next {r r' : Reading} {t : Token} (h : r.next t = .ok r') :
    r'.names = r.names ++ t.names := by
  unfold next at h
  split at h
  case h_6 e level openings op =>
    cases hpush : level.push e op with
    | error fault => simp [hpush, Except.map] at h
    | ok waiting =>
      obtain rfl : .operand waiting openings = r' := by simpa [hpush, Except.map] using h
      simp [names, Token.names, Level.names_push hpush]
  case h_7 e level o openings =>
    cases h
    rcases o with ⟨unary, around⟩
    cases unary <;>
      simp [names, Token.names, Opening.outerNames, Opening.wrap, Expr.names, Level.names_close]
  case h_8 => simp at h
  all_goals
    cases h
    simp [names, Token.names, Opening.outerNames, Level.names, Level.empty, Expr.names]

/-- A reading has the names of the tokens it has read. -/
theorem names_foldlM {tokens : List Token} {r r' : Reading}
    (h : tokens.foldlM next r = .ok r') : r'.names = r.names ++ tokens.flatMap Token.names := by
  induction tokens generalizing r with
  | nil =>
    cases h
    simp
  | cons t tokens ih =>
    rw [List.foldlM_cons] at h
    cases hnext : r.next t with
    | error fault => simp [hnext, bind, Except.bind] at h
    | ok between =>
      rw [hnext] at h
      rw [ih h, names_next hnext, List.flatMap_cons, List.append_assoc]

end Reading

/-- A tree keeps the names of its tokens in their order. -/
theorem Expr.names_ofTokens {tokens : List Token} {e : Expr} (h : Expr.ofTokens tokens = .ok e) :
    e.names = tokens.flatMap Token.names := by
  unfold Expr.ofTokens at h
  cases hr : tokens.foldlM Reading.next .start with
  | error fault => simp [hr, bind, Except.bind] at h
  | ok r =>
    have hnames := Reading.names_foldlM hr
    rw [hr] at h
    change r.finish = .ok e at h
    unfold Reading.finish at h
    split at h
    · rename_i e' level
      cases h
      rw [Level.names_close]
      simpa [Reading.names, Opening.outerNames, Reading.start, Level.names, Level.empty]
        using hnames
    · simp at h

/-- A body that can be read is split into tokens, and the tree is built from them. -/
theorem exists_tokens_of_parse {body : List Char} {e : Expr} (h : parse body = .ok e) :
    ∃ tokens, Token.scan body = .ok tokens ∧ Expr.ofTokens tokens = .ok e := by
  unfold parse at h
  cases hscan : Token.scan body with
  | error fault => simp [hscan, bind, Except.bind] at h
  | ok tokens =>
    rw [hscan] at h
    exact ⟨tokens, rfl, h⟩

/-- What the search finds in a body that can be read: the cell names in its tree, and exponents. -/
theorem mem_cellNames_iff_of_parse {body : List Char} {e : Expr} (h : parse body = .ok e)
    {name : String} : name ∈ cellNames body ↔ name ∈ e.names ∨ HasExponent body name := by
  obtain ⟨tokens, hscan, htree⟩ := exists_tokens_of_parse h
  rw [Expr.names_ofTokens htree]
  obtain ⟨hnames, hothers⟩ := Token.names_scanFrom hscan
  exact ⟨hothers name, fun hname => hname.elim (hnames ·) (·.mem_cellNames)⟩

/-- A text has a tree if it is a formula of good shape and the rest of it can be read. -/
theorem tree?_eq_some_iff {text : String} {e : Expr} :
    tree? text = some e ↔
      ∃ body, text.toList = '=' :: body ∧ (Shape.fault? text).isNone = true ∧
        parse body = .ok e := by
  constructor
  · intro h
    unfold tree? at h
    split at h
    · rename_i body htext
      split at h
      · rename_i hshape
        refine ⟨body, htext, hshape, ?_⟩
        cases hp : parse body with
        | error fault => simp [hp, Except.toOption] at h
        | ok e' => simpa [hp, Except.toOption] using h
      · simp at h
    · simp at h
  · rintro ⟨body, htext, hshape, hp⟩
    simp only [tree?, htext, if_pos hshape, hp, Except.toOption]

/-- Only formulas have a tree. -/
theorem isFormula_of_tree? {text : String} {e : Expr} (h : tree? text = some e) :
    (Content.ofText text).isFormula = true := by
  obtain ⟨body, htext, _⟩ := tree?_eq_some_iff.mp h
  rw [Content.isFormula_ofText, htext]
  rfl

/-- An exponent in a text is written like the name of a cell. -/
def ExponentNames (text : String) (a : Address) : Prop :=
  ∃ name, HasExponent text.toList name ∧ Address.parse? name = some a

/-- A formula mentions the cells that it has names or exponents for. -/
theorem mem_references {text : String} (h : (Content.ofText text).isFormula = true) {a : Address} :
    a ∈ references text ↔
      ∃ name ∈ cellNames text.toList, Address.parse? name = some a := by
  rw [references, if_pos h, List.mem_eraseDups, List.mem_filterMap]

/-- A formula mentions the cells that its exponents are written like. -/
theorem ExponentNames.mem_references {text : String}
    (hformula : (Content.ofText text).isFormula = true) {a : Address} (h : ExponentNames text a) :
    a ∈ references text := by
  obtain ⟨name, hexponent, ha⟩ := h
  exact (Formula.mem_references hformula).mpr ⟨name, hexponent.mem_cellNames, ha⟩

/-- A formula that can be read mentions the cells in its tree, and besides them only those that
its exponents are written like. -/
theorem mem_references_iff_of_tree? {text : String} {e : Expr} (h : tree? text = some e)
    {a : Address} :
    a ∈ references text ↔
      (∃ name ∈ e.names, Address.parse? name = some a) ∨ ExponentNames text a := by
  obtain ⟨body, htext, _, hp⟩ := tree?_eq_some_iff.mp h
  have hformula := isFormula_of_tree? h
  have hnames : cellNames text.toList = cellNames body := by rw [htext, cellNames_cons (by decide)]
  constructor
  · intro ha
    obtain ⟨name, hname, ha⟩ := (mem_references hformula).mp ha
    rw [hnames] at hname
    rcases (mem_cellNames_iff_of_parse hp).mp hname with hname | hexponent
    · exact .inl ⟨name, hname, ha⟩
    · refine .inr ⟨name, ?_, ha⟩
      rw [htext]
      exact hexponent.append ['=']
  · rintro (⟨name, hname, ha⟩ | hexponent)
    · refine (mem_references hformula).mpr ⟨name, ?_, ha⟩
      rw [hnames]
      exact (mem_cellNames_iff_of_parse hp).mpr (.inl hname)
    · exact hexponent.mem_references hformula

/-- A formula mentions every cell in its tree. -/
theorem mem_references_of_tree? {text : String} {e : Expr} (h : tree? text = some e)
    {name : String} (hname : name ∈ e.names) {a : Address} (ha : Address.parse? name = some a) :
    a ∈ references text :=
  (mem_references_iff_of_tree? h).mpr (.inl ⟨name, hname, ha⟩)

end Formula

end Spreadsheet
