import Mathlib.Data.List.Chain
import Mathlib.Data.List.Infix
import Spreadsheet.Proofs.Formula.Lexeme

/-!
# The check of shape

The text of a formula is checked for mistakes in its shape before it is split into tokens. The
check looks at characters, the parser at tokens, and yet a formula that the parser can read fails
the check for nothing but double spaces, so that only these make the check matter.

The characters that are not blank are the tokens as they are written, one after the other. So
what the parser demands of the next token is handed from token to token: the parentheses still to
be closed, whether an operand is there or due, and with it which characters may meet.
-/

namespace Spreadsheet

namespace Text

variable {text : List Char} {c : Char}

/-- The characters of a text that are not blank. -/
def ink (text : List Char) : List Char := text.filter fun c => !isBlank c

theorem ink_append (u v : List Char) : ink (u ++ v) = ink u ++ ink v := List.filter_append ..

theorem ink_cons_of_isBlank (h : isBlank c = true) : ink (c :: text) = ink text :=
  List.filter_cons_of_neg (by simp [h])

theorem ink_cons_of_not_isBlank (h : isBlank c = false) : ink (c :: text) = c :: ink text :=
  List.filter_cons_of_pos (by simp [h])

theorem ink_eq_self (h : ∀ c ∈ text, isBlank c = false) : ink text = text :=
  List.filter_eq_self.mpr fun c hc => by simp [h c hc]

theorem ink_reverse (text : List Char) : ink text.reverse = (ink text).reverse :=
  List.filter_reverse ..

/-- Dropping blanks leaves the ink as it is. -/
theorem ink_dropWhile (text : List Char) : ink (text.dropWhile isBlank) = ink text := by
  induction text with
  | nil => rfl
  | cons c text ih =>
    cases hc : isBlank c with
    | true => rw [List.dropWhile_cons_of_pos hc, ih, ink_cons_of_isBlank hc]
    | false => rw [List.dropWhile_cons_of_neg (by simp [hc])]

/-- Trimming takes nothing but blanks away. -/
theorem ink_trim (text : List Char) : ink (trim text) = ink text := by
  rw [trim, ink_reverse, ink_dropWhile, ink_reverse, List.reverse_reverse, ink_dropWhile]

theorem head?_ink (h : ∀ c ∈ text.head?, isBlank c = false) : (ink text).head? = text.head? := by
  cases text with
  | nil => rfl
  | cons c text => rw [ink_cons_of_not_isBlank (h c rfl), List.head?_cons, List.head?_cons]

/-- Trimming cuts off the end only after the front. -/
theorem trim_isPrefix (text : List Char) : trim text <+: text.dropWhile isBlank := by
  rw [trim, ← List.reverse_suffix, List.reverse_reverse]
  exact List.dropWhile_suffix _

theorem trim_isInfix (text : List Char) : trim text <:+: text :=
  (trim_isPrefix text).isInfix.trans (List.dropWhile_suffix _).isInfix

/-- The first character that is not blank is the first one after trimming. -/
theorem head?_trim (text : List Char) : (trim text).head? = (ink text).head? := by
  rw [← ink_trim, head?_ink]
  intro c hc
  obtain ⟨l, hl⟩ := List.head?_eq_some_iff.mp hc
  obtain ⟨s, hs⟩ := trim_isPrefix text
  have hhead : c ∈ (text.dropWhile isBlank).head? := by
    rw [← hs, hl]
    rfl
  exact of_mem_head?_dropWhile hhead

/-- The last character that is not blank is the last one after trimming. -/
theorem getLast?_trim (text : List Char) : (trim text).getLast? = (ink text).getLast? := by
  rw [← ink_trim, List.getLast?_eq_head?_reverse, List.getLast?_eq_head?_reverse, ← ink_reverse,
    head?_ink]
  intro c hc
  rw [trim, List.reverse_reverse] at hc
  exact of_mem_head?_dropWhile hc

end Text

namespace Formula

namespace Shape

variable {a b : Char} {cls text u v : List Char} {depth : Nat}

/-- A property of all characters of a text can be evaluated. -/
theorem forall_mem_of_all {P : Char → Prop} [DecidablePred P] (h : text.all (P ·) = true) :
    ∀ c ∈ text, P c := fun c hc => of_decide_eq_true (List.all_eq_true.mp h c hc)

theorem not_isBlank_of_mem_signs (h : a ∈ signs) : Text.isBlank a = false := by
  have hall : ∀ c ∈ signs, Text.isBlank c = false := forall_mem_of_all (by decide)
  exact hall a h

theorem balanced_cons (hopen : a ≠ '(') (hclose : a ≠ ')') :
    balanced depth (a :: text) = balanced depth text := by
  rw [balanced]
  · exact hopen
  · exact fun _ => hclose
  · exact fun _ _ => hclose

/-- Blanks count for no parenthesis. -/
theorem balanced_ink (depth : Nat) (text : List Char) :
    balanced depth (Text.ink text) = balanced depth text := by
  fun_induction balanced depth text with
  | case1 depth => rfl
  | case2 depth text ih => rwa [Text.ink_cons_of_not_isBlank (by decide), balanced]
  | case3 text => rw [Text.ink_cons_of_not_isBlank (by decide), balanced]
  | case4 text depth ih => rwa [Text.ink_cons_of_not_isBlank (by decide), balanced]
  | case5 depth c text hopen hzero hsucc ih =>
    have hclose : c ≠ ')' := by
      rintro rfl
      cases depth with
      | zero => exact hzero rfl rfl
      | succ depth => exact hsucc depth rfl rfl
    cases hc : Text.isBlank c with
    | true => rwa [Text.ink_cons_of_isBlank hc]
    | false => rwa [Text.ink_cons_of_not_isBlank hc, balanced_cons hopen hclose]

/-- No two characters of a class meet. -/
def Apart (cls text : List Char) : Prop := text.IsChain fun a b => a ∈ cls → b ∉ cls

/-- Where no character is of the class none meet. -/
theorem apart_of_not_mem (h : ∀ c ∈ u, c ∉ cls) : Apart cls u :=
  List.Pairwise.isChain (List.pairwise_of_forall_mem_list fun _ _ c hc _ => h c hc)

/-- Two texts that are apart are so together unless they meet. -/
theorem apart_append (hu : Apart cls u) (hv : Apart cls v)
    (hmeet : ∀ a ∈ u.getLast?, a ∈ cls → ∀ b ∈ v.head?, b ∉ cls) : Apart cls (u ++ v) :=
  List.isChain_append.mpr ⟨hu, hv, fun a ha b hb hcls => hmeet a ha hcls b hb⟩

/-- Characters of the class do not meet in a text where they are apart. -/
theorem Apart.not_meet (h : Apart cls text) (ha : a ∈ cls) (hb : b ∈ cls) :
    ¬ [a, b] <:+: text := by
  intro hmeet
  have hpair : [a, b].IsChain fun a b => a ∈ cls → b ∉ cls := List.IsChain.infix h hmeet
  exact List.isChain_pair.mp hpair ha hb

/-- Two characters are found adjacent exactly if they are somewhere in this order. -/
theorem adjacent_eq_true_iff : adjacent a b text = true ↔ [a, b] <:+: text := by
  fun_induction adjacent a b text with
  | case1 c d text ih =>
    rw [List.infix_cons_iff, ← ih, List.cons_prefix_cons, List.cons_prefix_cons, Bool.or_eq_true,
      Bool.and_eq_true, beq_iff_eq, beq_iff_eq, eq_comm (a := c), eq_comm (a := d)]
    simp only [and_true, List.nil_prefix]
  | case2 text hshort =>
    refine iff_of_false Bool.false_ne_true fun hmeet => ?_
    have hlength := hmeet.length_le
    match text with
    | [] => simp at hlength
    | [c] => simp at hlength
    | c :: d :: text => exact hshort c d text rfl

/-- Signs that meet in a text meet where its blanks are left out. -/
theorem adjacent_eq_false (h : Apart signs (Text.ink text)) (ha : a ∈ signs) (hb : b ∈ signs) :
    adjacent a b text = false := by
  by_contra hadjacent
  have hmeet : Text.ink [a, b] <:+: Text.ink text :=
    (adjacent_eq_true_iff.mp (Bool.not_eq_false _ ▸ hadjacent)).filter _
  rw [Text.ink_cons_of_not_isBlank (not_isBlank_of_mem_signs ha),
    Text.ink_cons_of_not_isBlank (not_isBlank_of_mem_signs hb)] at hmeet
  exact h.not_meet ha hb hmeet

/-- A trimmed body has no mistake in its signs if they stand apart, none ends it and at most a
minus sign begins it. -/
theorem signFault?_eq_none (hapart : Apart signs (Text.ink text))
    (hhead : ∀ c ∈ text.head?, c ∈ signs → c = '-') (hlast : ∀ c ∈ text.getLast?, c ∉ signs) :
    signFault? text = none := by
  have hsigns : ∀ p ∈ illegalPairs, p.1 ∈ signs ∧ p.2 ∈ signs := by decide
  have hpairs : ∀ p ∈ illegalPairs, ¬ adjacent p.1 p.2 text = true := fun p hp => by
    rw [adjacent_eq_false hapart (hsigns p hp).1 (hsigns p hp).2]
    exact Bool.false_ne_true
  unfold signFault?
  split
  · rename_i a b hfound
    exact absurd (List.find?_some hfound) (hpairs _ (List.mem_of_find?_eq_some hfound))
  · split
    · rename_i first last hfirst hend
      rw [if_neg fun h => h.2 (hhead first hfirst h.1), if_neg (hlast last hend)]
    · rfl

end Shape

namespace Token

open Shape

variable {t : Token} {u : List Char} {c : Char}

theorem not_isBlank_of_isWordChar (h : isWordChar c = true) : Text.isBlank c = false := by
  by_contra hblank
  have hword := toNat_of_isWordChar h
  simp only [Text.isBlank, Bool.not_eq_false, Bool.or_eq_true, Bool.and_eq_true,
    decide_eq_true_eq, beq_iff_eq] at hblank
  omega

theorem not_mem_signs_of_isWordChar (h : isWordChar c = true) : c ∉ signs := by
  intro hc
  have hall : ∀ c ∈ signs, isWordChar c = false := forall_mem_of_all (by decide)
  rw [hall c hc] at h
  cases h

theorem isWordChar_of_mem_unary {f : Unary} (h : c ∈ f.spelling.toList) : isWordChar c = true := by
  have hall : ∀ c ∈ f.spelling.toList, isWordChar c = true :=
    forall_mem_of_all (by cases f <;> decide)
  exact hall c h

/-- The characters of a name, a function name or a literal, in which signs stand apart and none
ends it. -/
structure Wordlike (u : List Char) : Prop where
  /-- There is a character. -/
  ne_nil : u ≠ []
  /-- There are only word characters and signs. -/
  mem : ∀ c ∈ u, isWordChar c = true ∨ c ∈ signs
  /-- No two signs meet. -/
  apart : Apart signs u
  /-- The last character is no sign. -/
  last : ∀ c ∈ u.getLast?, c ∉ signs

namespace Wordlike

variable {v : List Char}

theorem of_isWordChar (hne : u ≠ []) (h : ∀ c ∈ u, isWordChar c = true) : Wordlike u where
  ne_nil := hne
  mem c hc := .inl (h c hc)
  apart := apart_of_not_mem fun c hc => not_mem_signs_of_isWordChar (h c hc)
  last c hc := not_mem_signs_of_isWordChar (h c (List.mem_of_getLast? hc))

theorem append (hu : Wordlike u) (hv : Wordlike v) : Wordlike (u ++ v) where
  ne_nil := List.append_ne_nil_of_left_ne_nil hu.ne_nil v
  mem c hc := (List.mem_append.mp hc).elim (hu.mem c) (hv.mem c)
  apart := apart_append hu.apart hv.apart fun a ha hsign => absurd hsign (hu.last a ha)
  last c hc := by
    rw [List.getLast?_append_of_ne_nil u hv.ne_nil] at hc
    exact hv.last c hc

theorem cons_sign (hc : c ∈ signs) (hv : Wordlike v) (hhead : ∀ b ∈ v.head?, isWordChar b = true) :
    Wordlike (c :: v) where
  ne_nil := List.cons_ne_nil c v
  mem b hb := (List.mem_cons.mp hb).elim (fun h => .inr (h ▸ hc)) (hv.mem b)
  apart := apart_append (u := [c]) (List.isChain_singleton c) hv.apart
    fun _ _ _ b hb => not_mem_signs_of_isWordChar (hhead b hb)
  last b hb := by
    rw [← List.singleton_append, List.getLast?_append_of_ne_nil [c] hv.ne_nil] at hb
    exact hv.last b hb

theorem exponent {e : Numeral.Exponent} (h : e.WellFormed) : Wordlike e.text := by
  have hdigit : ∀ c ∈ e.digits, isWordChar c = true := fun c hc =>
    isWordChar_of_isDigit (List.all_eq_true.mp h.digits c hc)
  have hdigits : Wordlike e.digits := of_isWordChar h.digits_ne_nil hdigit
  have hmark : Wordlike [e.mark] := by
    refine of_isWordChar (List.cons_ne_nil _ _) fun c hc => ?_
    obtain rfl := List.mem_singleton.mp hc
    rcases h.mark with hmark | hmark <;> rw [hmark] <;> decide
  rw [Numeral.Exponent.text, ← List.singleton_append]
  cases hsign : e.sign with
  | none => exact hmark.append hdigits
  | some c =>
    have hc : c ∈ signs := by
      rcases h.sign c hsign with rfl | rfl <;> decide
    exact hmark.append (hdigits.cons_sign hc fun b hb => hdigit b (List.mem_of_head? hb))

theorem numeral {n : Numeral} (h : n.WellFormed) : Wordlike n.text := by
  have hmantissa : Wordlike n.mantissa :=
    of_isWordChar h.mantissa_ne_nil fun c hc => h.isWordChar_of_mem_mantissa hc
  rw [Numeral.text_eq]
  cases hexponent : n.exponent with
  | none => rwa [Option.map_none, Option.getD_none, List.append_nil]
  | some e => exact hmantissa.append (exponent (h.exponent e hexponent))

theorem literal {l : Literal} (h : l.numeral.WellFormed) : Wordlike l.text := by
  unfold Literal.text
  split
  · exact (numeral h).cons_sign (by decide) fun b hb => h.isWordChar_of_mem_head? hb
  · exact numeral h

theorem name {s : String} (h : IsName s) : Wordlike s.toList :=
  of_isWordChar h.toList_ne_nil fun _ hc => h.isWordChar hc

theorem unary (f : Unary) : Wordlike f.spelling.toList := by
  refine of_isWordChar ?_ fun c hc => isWordChar_of_mem_unary hc
  cases f <;> decide

theorem not_isBlank (h : Wordlike u) (hc : c ∈ u) : Text.isBlank c = false :=
  (h.mem c hc).elim not_isBlank_of_isWordChar not_isBlank_of_mem_signs

theorem ne_paren (h : Wordlike u) (hc : c ∈ u) : c ≠ '(' ∧ c ≠ ')' := by
  constructor <;>
    · rintro rfl
      exact absurd (h.mem _ hc) (by decide)

end Wordlike

theorem Written.not_isBlank (h : t.Written u) : ∀ c ∈ u, Text.isBlank c = false := by
  cases h with
  | number h => exact fun c => (Wordlike.literal h.wellFormed).not_isBlank
  | cell h => exact fun c => (Wordlike.name h).not_isBlank
  | operator op => exact forall_mem_of_all (by rcases op with op | op | op <;> cases op <;> decide)
  | unary f => exact fun c => (Wordlike.unary f).not_isBlank
  | leftParen => exact forall_mem_of_all (by decide)
  | rightParen => exact forall_mem_of_all (by decide)

/-- Tokens and their characters, one token after the other. A minus sign begins a number only
where an operand is due. -/
inductive Spelt : Bool → List Token → List Char → Prop where
  | nil (operand : Bool) : Spelt operand [] []
  | cons {operand : Bool} {t : Token} {u ink : List Char} {tokens : List Token} (hw : t.Written u)
    (hminus : u.head? = some '-' → t = .operator (.sum .subtract) ∨ operand = true)
    (h : Spelt t.opensOperand tokens ink) : Spelt operand (t :: tokens) (u ++ ink)

theorem isBlank_of_isSpace (h : isSpace c = true) : Text.isBlank c = true := by
  simp only [isSpace, Bool.or_eq_true, beq_iff_eq] at h
  rcases h with (((rfl | rfl) | rfl) | rfl) | rfl <;> decide

/-- The characters of a text that are not blank are those of its tokens. -/
theorem spelt_of_scanFrom {size : Nat} {operand spaced : Bool} {text : List Char}
    {tokens : List Token} (h : scanFrom size operand spaced text = .ok tokens) :
    Spelt operand tokens (Text.ink text) := by
  fun_induction scanFrom size operand spaced text generalizing tokens with
  | case1 operand spaced =>
    cases h
    exact .nil operand
  | case2 operand spaced c rest hspace ih =>
    rw [Text.ink_cons_of_isBlank (isBlank_of_isSpace hspace)]
    exact ih h
  | case3 => cases h
  | case4 operand spaced c rest hspace t left hlexeme ih =>
    obtain ⟨u, htext, hwritten, hminus⟩ := exists_written_of_lexeme hlexeme
    cases hrest : scanFrom size t.opensOperand false left with
    | error fault => simp [hrest, Except.map] at h
    | ok others =>
      obtain rfl : t :: others = tokens := by simpa [hrest, Except.map] using h
      rw [htext, Text.ink_append, Text.ink_eq_self hwritten.not_isBlank]
      exact .cons hwritten hminus (ih hrest)

end Token

namespace Reading

open Shape

variable {r r' : Reading} {t : Token} {tokens : List Token} {e : Expr} {operand : Bool}
  {u ink : List Char}

/-- How many parentheses are open. -/
def depth : Reading → Nat
  | .operand _ openings => openings.length
  | .function _ _ openings => openings.length
  | .operator _ _ openings => openings.length

/-- Whether an operand was just read. -/
def hasOperand : Reading → Bool
  | .operator _ _ _ => true
  | _ => false

/-- What one token does to the open parentheses, and where operators stand. -/
theorem of_next (h : r.next t = .ok r') :
    match t with
    | .operator _ => r'.depth = r.depth ∧ r.hasOperand = true ∧ r'.hasOperand = false
    | .leftParen => r'.depth = r.depth + 1
    | .rightParen => r.depth = r'.depth + 1
    | _ => r'.depth = r.depth := by
  unfold next at h
  split at h
  case h_6 e level openings op =>
    cases hpush : level.push e op with
    | error fault => simp [hpush, Except.map] at h
    | ok waiting =>
      obtain rfl : .operand waiting openings = r' := by simpa [hpush, Except.map] using h
      exact ⟨rfl, rfl, rfl⟩
  all_goals cases h
  all_goals rfl

/-- The characters that a reading can still be finished with. -/
structure Legible (r : Reading) (operand : Bool) (ink : List Char) : Prop where
  /-- They close the open parentheses and those that they open. -/
  balanced : balanced r.depth ink = true
  /-- Their signs stand apart. -/
  apart : Apart signs ink
  /-- A sign begins them only behind an operand, or as the sign of a number. -/
  head : ∀ c ∈ ink.head?, c ∈ signs → r.hasOperand = true ∨ c = '-' ∧ operand = true
  /-- No sign ends them. -/
  last : ∀ c ∈ ink.getLast?, c ∉ signs
  /-- There are some unless an operand was just read. -/
  nonempty : r.hasOperand = false → ink ≠ []

/-- A reading that is finished leaves nothing to be legible. -/
theorem legible_of_finish (h : r.finish = .ok e) : r.Legible operand [] := by
  unfold finish at h
  split at h
  · exact ⟨rfl, List.isChain_nil, by simp, by simp, fun h => by cases h⟩
  · cases h

/-- Text without parentheses keeps the balance. -/
theorem balanced_append_of_ne {depth : Nat} (h : ∀ c ∈ u, c ≠ '(' ∧ c ≠ ')') (ink : List Char) :
    Shape.balanced depth (u ++ ink) = Shape.balanced depth ink := by
  induction u with
  | nil => rfl
  | cons c u ih =>
    have hc := h c List.mem_cons_self
    rw [List.cons_append, balanced_cons hc.1 hc.2, ih fun d hd => h d (List.mem_cons_of_mem c hd)]

/-- The characters of a token in front. A sign ends them only if an operand is due behind it that
no minus sign begins. -/
theorem Legible.append {opens : Bool} (hne : u ≠ [])
    (hbalanced : Shape.balanced r.depth (u ++ ink) = true) (hapart : Apart signs u)
    (hhead : ∀ c ∈ u.head?, c ∈ signs → r.hasOperand = true ∨ c = '-' ∧ operand = true)
    (hlast : ∀ c ∈ u.getLast?, c ∈ signs → r'.hasOperand = false ∧ opens = false)
    (h : r'.Legible opens ink) : r.Legible operand (u ++ ink) where
  balanced := hbalanced
  apart := by
    refine apart_append hapart h.apart fun a ha hsign b hb hb' => ?_
    obtain ⟨hoperand, hopens⟩ := hlast a ha hsign
    rcases h.head b hb hb' with htrue | ⟨_, htrue⟩
    · rw [hoperand] at htrue
      cases htrue
    · rw [hopens] at htrue
      cases htrue
  head := by rwa [List.head?_append_of_ne_nil u hne]
  last := by
    intro c hc hsign
    by_cases hink : ink = []
    · rw [hink, List.append_nil] at hc
      exact h.nonempty (hlast c hc hsign).1 hink
    · rw [List.getLast?_append_of_ne_nil u hink] at hc
      exact h.last c hc hsign
  nonempty _ := List.append_ne_nil_of_left_ne_nil hne ink

/-- A name, a function name or a literal in front. -/
theorem Legible.wordlike_append {opens : Bool} (hdepth : r'.depth = r.depth)
    (hu : Token.Wordlike u) (hminus : ∀ c ∈ u.head?, c ∈ signs → c = '-' ∧ operand = true)
    (h : r'.Legible opens ink) : r.Legible operand (u ++ ink) := by
  refine h.append hu.ne_nil ?_ hu.apart (fun c hc hsign => .inr (hminus c hc hsign))
    fun c hc hsign => absurd hsign (hu.last c hc)
  rw [balanced_append_of_ne fun c hc => hu.ne_paren hc, ← hdepth]
  exact h.balanced

/-- An operator in front. -/
theorem Legible.operator_append {op : Operator} (hdepth : r'.depth = r.depth)
    (hbefore : r.hasOperand = true) (hafter : r'.hasOperand = false)
    (h : r'.Legible (Token.operator op).opensOperand ink) :
    r.Legible operand (op.spelling.toList ++ ink) := by
  have hne : op.spelling.toList ≠ [] := by
    rcases op with op | op | op <;> cases op <;> decide
  have hparen : ∀ c ∈ op.spelling.toList, c ≠ '(' ∧ c ≠ ')' :=
    forall_mem_of_all (by rcases op with op | op | op <;> cases op <;> decide)
  have hapart : Apart signs op.spelling.toList := by
    unfold Apart
    rcases op with op | op | op <;> cases op <;> decide
  have hlast : ∀ c ∈ op.spelling.toList.getLast?, c ∈ signs →
      (Token.operator op).opensOperand = false := by
    intro c hc hsign
    cases op with
    | sum op => rfl
    | product op => rfl
    | comparison op =>
      -- No comparison is written with an arithmetic sign.
      have hall : ∀ c ∈ op.spelling.toList, c ∉ signs :=
        forall_mem_of_all (by cases op <;> decide)
      exact absurd hsign (hall c (List.mem_of_getLast? hc))
  refine h.append hne ?_ hapart (fun _ _ _ => .inl hbefore) fun c hc hsign =>
    ⟨hafter, hlast c hc hsign⟩
  rw [balanced_append_of_ne hparen, ← hdepth]
  exact h.balanced

/-- A parenthesis in front. -/
theorem Legible.paren_append {opens : Bool} {c : Char} (hc : c ∉ signs)
    (hbalanced : Shape.balanced r.depth (c :: ink) = true) (h : r'.Legible opens ink) :
    r.Legible operand ([c] ++ ink) := by
  refine h.append (List.cons_ne_nil c []) hbalanced (List.isChain_singleton c) ?_ ?_
  · intro d hd hsign
    obtain rfl : c = d := Option.some.inj hd
    exact absurd hsign hc
  · intro d hd hsign
    obtain rfl : c = d := Option.some.inj hd
    exact absurd hsign hc

/-- The only sign at the head of a literal is a minus. -/
theorem Literal.eq_minus_of_mem_head? {l : Literal} (h : l.numeral.WellFormed) {c : Char}
    (hc : c ∈ l.text.head?) (hsign : c ∈ signs) : c = '-' := by
  unfold Literal.text at hc
  split at hc
  · exact (Option.some.inj hc).symm
  · exact absurd hsign (Token.not_mem_signs_of_isWordChar (h.isWordChar_of_mem_head? hc))

/-- A token that is read in front. -/
theorem Legible.of_next (hnext : r.next t = .ok r') (hw : t.Written u)
    (hminus : u.head? = some '-' → t = .operator (.sum .subtract) ∨ operand = true)
    (h : r'.Legible t.opensOperand ink) : r.Legible operand (u ++ ink) := by
  have hstep := Reading.of_next hnext
  cases hw with
  | number hl =>
    refine h.wordlike_append hstep (.literal hl.wellFormed) fun c hc hsign => ?_
    obtain rfl := Literal.eq_minus_of_mem_head? hl.wellFormed hc hsign
    exact ⟨rfl, (hminus hc).resolve_left (by simp)⟩
  | cell hname =>
    exact h.wordlike_append hstep (.name hname) fun c hc hsign =>
      absurd hsign (Token.not_mem_signs_of_isWordChar (hname.isWordChar (List.mem_of_head? hc)))
  | unary f =>
    exact h.wordlike_append hstep (.unary f) fun c hc hsign => absurd hsign
      (Token.not_mem_signs_of_isWordChar (Token.isWordChar_of_mem_unary (List.mem_of_head? hc)))
  | operator op => exact h.operator_append hstep.1 hstep.2.1 hstep.2.2
  | leftParen =>
    have hbalanced := h.balanced
    rw [hstep] at hbalanced
    exact h.paren_append (by decide) hbalanced
  | rightParen =>
    have hbalanced : Shape.balanced r.depth (')' :: ink) = true := by
      rw [hstep]
      exact h.balanced
    exact h.paren_append (by decide) hbalanced

/-- Tokens that are read to the end have characters that the reading can be finished with. -/
theorem legible_of_spelt (h : Token.Spelt operand tokens ink)
    (hread : tokens.foldlM next r = .ok r') (hfinish : r'.finish = .ok e) :
    r.Legible operand ink := by
  -- Along the tokens, with the reading in front of each: the end is known from its last reading.
  induction h generalizing r with
  | nil operand =>
    cases hread
    exact legible_of_finish hfinish
  | @cons operand t u ink tokens hw hminus h ih =>
    rw [List.foldlM_cons] at hread
    cases hnext : r.next t with
    | error fault => simp [hnext, bind, Except.bind] at hread
    | ok between =>
      rw [hnext] at hread
      exact (ih hread).of_next hnext hw hminus

end Reading

variable {body : List Char} {e : Expr}

/-- The characters of a formula that can be read, from the start. -/
theorem legible_of_parse (h : parse body = .ok e) :
    Reading.start.Legible true (Text.ink body) := by
  obtain ⟨tokens, hscan, htree⟩ := exists_tokens_of_parse h
  unfold Expr.ofTokens at htree
  cases hread : tokens.foldlM Reading.next .start with
  | error fault => simp [hread, bind, Except.bind] at htree
  | ok r =>
    rw [hread] at htree
    exact Reading.legible_of_spelt (Token.spelt_of_scanFrom hscan) hread htree

namespace Shape

/-- The check of a formula's shape is that of its trimmed body. -/
theorem fault?_formula (body : List Char) :
    fault? (String.ofList ('=' :: body)) = bodyFault? (Text.trim body) := by
  have hblank : Text.allBlank ('=' :: body) = false := by
    rw [Text.allBlank, List.all_cons, show Text.isBlank '=' = false by decide, Bool.false_and]
  rw [fault?, String.toList_ofList, hblank, if_neg Bool.false_ne_true]
  rfl

/-- A formula that can be read has no mistake in its shape but double spaces. -/
theorem bodyFault?_trim_of_parse (h : parse body = .ok e) :
    bodyFault? (Text.trim body) =
      if [' ', ' '] <:+: Text.trim body then some .doubleSpace else none := by
  have hlegible := legible_of_parse h
  have hne : Text.trim body ≠ [] := by
    intro hnil
    have hink := Text.ink_trim body
    rw [hnil] at hink
    exact hlegible.nonempty rfl hink.symm
  have hbalanced : balanced 0 (Text.trim body) = true := by
    rw [← balanced_ink, Text.ink_trim]
    exact hlegible.balanced
  have hsigns : signFault? (Text.trim body) = none := by
    refine signFault?_eq_none ?_ ?_ ?_
    · rw [Text.ink_trim]
      exact hlegible.apart
    · rw [Text.head?_trim]
      intro c hc hsign
      rcases hlegible.head c hc hsign with hoperand | ⟨rfl, _⟩
      · cases hoperand
      · rfl
    · rw [Text.getLast?_trim]
      exact hlegible.last
  simp only [bodyFault?, if_neg hne, hbalanced, hsigns, adjacent_eq_true_iff, Bool.not_true,
    Bool.false_eq_true, if_false]

end Shape

/-- The value of a formula's body when the check of its shape is left out. -/
def evaluateUnchecked {m : Type → Type} [Monad m] (read : Address → m Value) (body : List Char) :
    m Value :=
  match parse body with
  | .ok e => e.evaluate read
  | .error _ => pure (.error .invalid)

/-- A formula has the tree of its body if its shape is without fault. -/
theorem tree?_formula (body : List Char) :
    tree? (String.ofList ('=' :: body)) =
      if (Shape.fault? (String.ofList ('=' :: body))).isNone then (parse body).toOption
      else none := by
  simp only [tree?, String.toList_ofList]

/-- Of a formula that can be read the check refuses nothing but double spaces inside. So the check
makes a difference to the value of no other formula. -/
theorem fault?_of_parse (body : List Char) :
    (∀ e, parse body = .ok e → Shape.fault? (String.ofList ('=' :: body)) =
      if [' ', ' '] <:+: Text.trim body then some .doubleSpace else none) ∧
    ∀ {m : Type → Type} [Monad m] (read : Address → m Value),
      evaluate read (String.ofList ('=' :: body)) ≠ evaluateUnchecked read body →
        (∃ e, parse body = .ok e) ∧ [' ', ' '] <:+: Text.trim body := by
  have hfault : ∀ e, parse body = .ok e → Shape.fault? (String.ofList ('=' :: body)) =
      if [' ', ' '] <:+: Text.trim body then some .doubleSpace else none := by
    intro e he
    rw [Shape.fault?_formula]
    exact Shape.bodyFault?_trim_of_parse he
  refine ⟨hfault, fun read hne => ?_⟩
  unfold evaluate evaluateUnchecked at hne
  rw [tree?_formula] at hne
  cases hparse : parse body with
  | error fault =>
    refine absurd ?_ hne
    simp only [hparse, Except.toOption, ite_self]
  | ok e =>
    refine ⟨⟨e, rfl⟩, ?_⟩
    by_contra hspaces
    refine hne ?_
    simp only [hparse, hfault e hparse, if_neg hspaces, Option.isNone_none, if_true,
      Except.toOption]

/-- The signs of a literal and of its exponent pass the check. Two spaces inside a formula that can
be read do not, and its value is then no longer the number that it writes. -/
theorem fault?_of_parse_spaces :
    let read : Address → Id Value := fun _ => .error .missing
    (parse "A1<-1E-5".toList = .ok (.binary (.comparison .less) (.cell "A1") (.number (-1e-5))) ∧
      Shape.fault? "=A1<-1E-5" = none) ∧
    (parse "(  7)".toList = .ok (.number 7) ∧ Shape.fault? "=(  7)" = some .doubleSpace) ∧
    (evaluate read "=(  7)" ≠ evaluateUnchecked read "(  7)".toList ∧
      [' ', ' '] <:+: Text.trim "(  7)".toList) := by
  intro read
  have hsigns : parse "A1<-1E-5".toList =
      .ok (.binary (.comparison .less) (.cell "A1") (.number (-1e-5))) := by decide +kernel
  have hspaces : parse "(  7)".toList = .ok (.number 7) := by decide +kernel
  have hsingle : ¬ [' ', ' '] <:+: Text.trim "A1<-1E-5".toList := by decide +kernel
  have hdouble : [' ', ' '] <:+: Text.trim "(  7)".toList := by decide +kernel
  have hsignsText : String.ofList ('=' :: "A1<-1E-5".toList) = "=A1<-1E-5" := by rfl
  have hspacesText : String.ofList ('=' :: "(  7)".toList) = "=(  7)" := by rfl
  have hdiffer : evaluate read "=(  7)" ≠ evaluateUnchecked read "(  7)".toList := by
    have htree : tree? "=(  7)" = none := by decide +kernel
    simp only [evaluate, htree, evaluateUnchecked, hspaces]
    intro h
    cases h
  refine ⟨⟨hsigns, ?_⟩, ⟨hspaces, ?_⟩, hdiffer, ?_⟩
  · have h := (fault?_of_parse "A1<-1E-5".toList).1 _ hsigns
    rwa [hsignsText, if_neg hsingle] at h
  · have h := (fault?_of_parse "(  7)".toList).1 _ hspaces
    rwa [hspacesText, if_pos hdouble] at h
  · have h := (fault?_of_parse "(  7)".toList).2 read
    rw [hspacesText] at h
    exact (h hdiffer).2

end Formula

end Spreadsheet
