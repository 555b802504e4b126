import Spreadsheet.Formula.Expr.Parser

/-!
# The grammar of formulas

Phrases come in four tiers. An operand is a number, a cell name, or a comparison in parentheses,
with or without a function name in front of it. Products are built from operands and sums from
products, from left to right. A comparison is a sum, or two sums with one sign of comparison
between them.

Building a tree from tokens accepts exactly the comparisons of this grammar, with the tree that
the grammar gives them. Soundness follows what the tokens read so far spell: every operand that
waits is a phrase, followed by its operator. Completeness follows a phrase from the level at which
it begins to the level at which it ends, which differ only in the tiers of the phrase and below.
-/

namespace Spreadsheet.Formula

/-- The tiers of phrases, from the tightest to the loosest. -/
inductive Tier where
  | operand
  | product
  | sum
  | comparison
  deriving DecidableEq, Repr

/-- The tokens that are phrases of a tier, each with its tree. Parentheses leave no node. -/
inductive Phrase : Tier → List Token → Expr → Prop where
  | number (value : Float) : Phrase .operand [.number value] (.number value)
  | cell (name : String) : Phrase .operand [.cell name] (.cell name)
  | group {tokens : List Token} {e : Expr} (inside : Phrase .comparison tokens e) :
    Phrase .operand (.leftParen :: (tokens ++ [.rightParen])) e
  | call (f : Unary) {tokens : List Token} {e : Expr} (argument : Phrase .comparison tokens e) :
    Phrase .operand (.unary f :: .leftParen :: (tokens ++ [.rightParen])) (.call f e)
  | ofOperand {tokens : List Token} {e : Expr} (h : Phrase .operand tokens e) :
    Phrase .product tokens e
  | product (op : ProductOp) {lefts rights : List Token} {left right : Expr}
    (hl : Phrase .product lefts left) (hr : Phrase .operand rights right) :
    Phrase .product (lefts ++ .operator (.product op) :: rights)
      (.binary (.product op) left right)
  | ofProduct {tokens : List Token} {e : Expr} (h : Phrase .product tokens e) :
    Phrase .sum tokens e
  | sum (op : SumOp) {lefts rights : List Token} {left right : Expr}
    (hl : Phrase .sum lefts left) (hr : Phrase .product rights right) :
    Phrase .sum (lefts ++ .operator (.sum op) :: rights) (.binary (.sum op) left right)
  | ofSum {tokens : List Token} {e : Expr} (h : Phrase .sum tokens e) :
    Phrase .comparison tokens e
  | comparison (op : Comparison) {lefts rights : List Token} {left right : Expr}
    (hl : Phrase .sum lefts left) (hr : Phrase .sum rights right) :
    Phrase .comparison (lefts ++ .operator (.comparison op) :: rights)
      (.binary (.comparison op) left right)

/-- An operand that waits is a phrase with its operator behind it. -/
inductive Waits {α : Type} (tier : Tier) (sign : α → Operator) :
    Option (Expr × α) → List Token → Prop where
  | nothing : Waits tier sign none []
  | left {tokens : List Token} {e : Expr} (op : α) (h : Phrase tier tokens e) :
    Waits tier sign (some (e, op)) (tokens ++ [.operator (sign op)])

/-- The tokens of the operands that wait at a level. -/
inductive Level.Spells : Level → List Token → Prop where
  | mk {c : Option (Expr × Comparison)} {s : Option (Expr × SumOp)} {p : Option (Expr × ProductOp)}
    {comparing adding multiplying : List Token} (hc : Waits .sum .comparison c comparing)
    (hs : Waits .sum .sum s adding) (hp : Waits .product .product p multiplying) :
    Spells ⟨c, s, p⟩ (comparing ++ adding ++ multiplying)

/-- The tokens that open a parenthesis. -/
def Opening.tokens : Opening → List Token
  | ⟨none, _⟩ => [.leftParen]
  | ⟨some f, _⟩ => [.unary f, .leftParen]

/-- The tokens outside the innermost parenthesis, and those that open it. -/
inductive Opening.Spell : List Opening → List Token → Prop where
  | nil : Spell [] []
  | cons {o : Opening} {openings : List Opening} {outside around : List Token}
    (ho : Spell openings outside) (ha : o.around.Spells around) :
    Spell (o :: openings) (outside ++ around ++ o.tokens)

/-- The tokens read so far. -/
inductive Reading.Spells : Reading → List Token → Prop where
  | operand {level : Level} {openings : List Opening} {outside waiting : List Token}
    (ho : Opening.Spell openings outside) (hw : level.Spells waiting) :
    Spells (.operand level openings) (outside ++ waiting)
  | function (f : Unary) {level : Level} {openings : List Opening} {outside waiting : List Token}
    (ho : Opening.Spell openings outside) (hw : level.Spells waiting) :
    Spells (.function f level openings) (outside ++ waiting ++ [.unary f])
  | operator {e : Expr} {level : Level} {openings : List Opening}
    {outside waiting last : List Token} (ho : Opening.Spell openings outside)
    (hw : level.Spells waiting) (he : Phrase .operand last e) :
    Spells (.operator e level openings) (outside ++ waiting ++ last)

theorem Level.Spells.empty : Level.empty.Spells [] := .mk .nothing .nothing .nothing

theorem Reading.Spells.start : start.Spells [] := .operand .nil .empty

/-- The phrase that a closed parenthesis is. -/
theorem Opening.phrase_wrap (o : Opening) {tokens : List Token} {e : Expr}
    (h : Phrase .comparison tokens e) :
    Phrase .operand (o.tokens ++ (tokens ++ [.rightParen])) (o.wrap e) := by
  rcases o with ⟨unary, around⟩
  cases unary with
  | none => exact .group h
  | some f => exact .call f h

namespace Level

section Close

variable {c : Option (Expr × Comparison)} {s : Option (Expr × SumOp)}
  {p : Option (Expr × ProductOp)} {adding multiplying last : List Token} {e : Expr}

/-- An operand completes the product that waits for it. -/
theorem phrase_closeProduct (hp : Waits .product .product p multiplying)
    (he : Phrase .operand last e) :
    Phrase .product (multiplying ++ last) (closeProduct ⟨c, s, p⟩ e) := by
  cases hp with
  | nothing => exact .ofOperand he
  | left op h =>
    rw [List.append_assoc]
    exact .product op h he

/-- It then completes the sum that waits for the product. -/
theorem phrase_closeSum (hs : Waits .sum .sum s adding)
    (hp : Waits .product .product p multiplying) (he : Phrase .operand last e) :
    Phrase .sum (adding ++ (multiplying ++ last)) (closeSum ⟨c, s, p⟩ e) := by
  have hproduct : Phrase .product (multiplying ++ last) (closeProduct ⟨c, s, p⟩ e) :=
    phrase_closeProduct hp he
  cases hs with
  | nothing => exact .ofProduct hproduct
  | left op h =>
    rw [List.append_assoc]
    exact .sum op h hproduct

end Close

variable {level level' : Level} {waiting last : List Token} {e : Expr}

/-- Between its parentheses an operand completes everything that waits. -/
theorem phrase_close (hw : level.Spells waiting) (he : Phrase .operand last e) :
    Phrase .comparison (waiting ++ last) (level.close e) := by
  obtain @⟨c, s, p, comparing, adding, multiplying, hc, hs, hp⟩ := hw
  have hsum : Phrase .sum (adding ++ (multiplying ++ last)) (closeSum ⟨c, s, p⟩ e) :=
    phrase_closeSum hs hp he
  rw [List.append_assoc, List.append_assoc]
  cases hc with
  | nothing => exact .ofSum hsum
  | left op h =>
    rw [List.append_assoc]
    exact .comparison op h hsum

/-- An operator makes what binds at least as tightly wait as its left side. -/
theorem spells_push {op : Operator} (hw : level.Spells waiting) (he : Phrase .operand last e)
    (h : level.push e op = .ok level') : level'.Spells (waiting ++ (last ++ [.operator op])) := by
  obtain @⟨c, s, p, comparing, adding, multiplying, hc, hs, hp⟩ := hw
  cases op with
  | product op =>
    cases h
    have hspells := Spells.mk hc hs (.left op (phrase_closeProduct (c := c) (s := s) hp he))
    simpa only [List.append_assoc] using hspells
  | sum op =>
    cases h
    have hspells := Spells.mk hc (.left op (phrase_closeSum (c := c) hs hp he)) .nothing
    simpa only [List.append_assoc, List.append_nil] using hspells
  | comparison op =>
    cases hc with
    | left => cases h
    | nothing =>
      cases h
      have hspells :=
        Spells.mk (.left op (phrase_closeSum (c := none) hs hp he)) .nothing .nothing
      simpa only [List.append_assoc, List.append_nil, List.nil_append] using hspells

end Level

namespace Reading

variable {r r' : Reading} {tokens : List Token} {t : Token} {e : Expr}

/-- A token that is read is spelt behind the tokens before it. -/
theorem Spells.next (hr : r.Spells tokens) (h : r.next t = .ok r') :
    r'.Spells (tokens ++ [t]) := by
  unfold Reading.next at h
  split at h
  case h_1 level openings value =>
    cases h
    cases hr with
    | operand ho hw => exact .operator ho hw (.number value)
  case h_2 level openings name =>
    cases h
    cases hr with
    | operand ho hw => exact .operator ho hw (.cell name)
  case h_3 level openings f =>
    cases h
    cases hr with
    | operand ho hw => exact .function f ho hw
  case h_4 level openings =>
    cases h
    cases hr with
    | operand ho hw =>
      have hopen := Opening.Spell.cons (o := ⟨none, level⟩) ho hw
      simpa [Opening.tokens] using Spells.operand hopen .empty
  case h_5 f level openings =>
    cases h
    cases hr with
    | function _ ho hw =>
      have hopen := Opening.Spell.cons (o := ⟨some f, level⟩) ho hw
      simpa [Opening.tokens] using Spells.operand hopen .empty
  case h_6 e level openings op =>
    cases hr with
    | operator ho hw he =>
      cases hpush : level.push e op with
      | error fault => simp [hpush, Except.map] at h
      | ok waiting =>
        obtain rfl : .operand waiting openings = r' := by simpa [hpush, Except.map] using h
        simpa using Spells.operand ho (Level.spells_push hw he hpush)
  case h_7 e level o openings =>
    cases h
    cases hr with
    | operator ho hw he =>
      cases ho with
      | cons ho ha =>
        have hwrap := o.phrase_wrap (Level.phrase_close hw he)
        simpa using Spells.operator ho ha hwrap
  case h_8 => cases h

/-- So is every sequence of tokens. -/
theorem Spells.foldlM {more : List Token} (hr : r.Spells tokens)
    (h : more.foldlM Reading.next r = .ok r') : r'.Spells (tokens ++ more) := by
  induction more generalizing r tokens with
  | nil =>
    cases h
    simpa using hr
  | cons t more ih =>
    rw [List.foldlM_cons] at h
    cases hnext : r.next t with
    | error fault => simp [hnext, bind, Except.bind] at h
    | ok between =>
      rw [hnext] at h
      simpa using ih (hr.next hnext) h

/-- A reading that can be finished spells a comparison. -/
theorem Spells.phrase (hr : r.Spells tokens) (h : r.finish = .ok e) :
    Phrase .comparison tokens e := by
  unfold finish at h
  split at h
  · cases h
    cases hr with
    | operator ho hw he =>
      cases ho
      exact Level.phrase_close hw he
  · cases h

end Reading

namespace Tier

/-- A level without the operands that wait in a tier or below it. -/
def clear : Tier → Level → Level
  | .operand, level => level
  | .product, level => { level with product := none }
  | .sum, level => { level with sum := none, product := none }
  | .comparison, _ => .empty

/-- An operand with everything it completes in a tier and below it. -/
def close : Tier → Level → Expr → Expr
  | .operand, _ => id
  | .product, level => level.closeProduct
  | .sum, level => level.closeSum
  | .comparison, level => level.close

end Tier

namespace Reading

variable {r r' : Reading} {tokens lefts : List Token} {last : Expr} {level : Level}
  {openings : List Opening}

/-- Reading goes on where it stopped. -/
theorem foldlM_append_of_ok (h : tokens.foldlM next r = .ok r') (more : List Token) :
    (tokens ++ more).foldlM next r = more.foldlM next r' := by
  rw [List.foldlM_append, h]
  rfl

/-- An operator after an operand leaves the operand to wait. -/
theorem foldlM_operator {op : Operator} {waiting : Level}
    (hl : lefts.foldlM next r = .ok (.operator last level openings))
    (hpush : level.push last op = .ok waiting) (rights : List Token) :
    (lefts ++ .operator op :: rights).foldlM next r =
      rights.foldlM next (.operand waiting openings) := by
  have hnext : next (.operator last level openings) (.operator op) =
      .ok (.operand waiting openings) := by
    rw [next, hpush]
    rfl
  rw [foldlM_append_of_ok hl, List.foldlM_cons, hnext]
  rfl

/-- A comparison that is closed by a parenthesis is an operand outside. -/
theorem foldlM_rightParen {o : Opening}
    (h : tokens.foldlM next (.operand .empty (o :: openings)) =
      .ok (.operator last level (o :: openings))) :
    (tokens ++ [Token.rightParen]).foldlM next (.operand .empty (o :: openings)) =
      .ok (.operator (o.wrap (level.close last)) o.around openings) :=
  foldlM_append_of_ok h [.rightParen]

end Reading

/-- A phrase that begins where nothing waits in its tier or below ends in an operand that
completes it. What waits in the tiers above is kept. -/
theorem Phrase.foldlM_next {tier : Tier} {tokens : List Token} {e : Expr}
    (h : Phrase tier tokens e) (level : Level) (openings : List Opening) :
    ∃ last level', tokens.foldlM Reading.next (.operand (tier.clear level) openings) =
        .ok (.operator last level' openings) ∧
      tier.clear level' = tier.clear level ∧ tier.close level' last = e := by
  induction h generalizing level openings with
  | number value => exact ⟨_, _, rfl, rfl, rfl⟩
  | cell name => exact ⟨_, _, rfl, rfl, rfl⟩
  | group inside ih =>
    obtain ⟨last, level', hread, -, rfl⟩ := ih .empty (⟨none, level⟩ :: openings)
    exact ⟨_, level, Reading.foldlM_rightParen hread, rfl, rfl⟩
  | call f argument ih =>
    obtain ⟨last, level', hread, -, rfl⟩ := ih .empty (⟨some f, level⟩ :: openings)
    exact ⟨_, level, Reading.foldlM_rightParen hread, rfl, rfl⟩
  | ofOperand h ih =>
    obtain ⟨last, level', hread, rfl, rfl⟩ := ih (Tier.product.clear level) openings
    exact ⟨last, _, hread, rfl, rfl⟩
  | product op hl hr ihl ihr =>
    obtain ⟨left, before, hleft, hclear, rfl⟩ := ihl level openings
    let waiting : Level := { before with product := some (before.closeProduct left, op) }
    obtain ⟨right, after, hright, rfl, rfl⟩ := ihr waiting openings
    refine ⟨right, waiting, ?_, hclear, rfl⟩
    rw [Reading.foldlM_operator hleft rfl]
    exact hright
  | ofProduct h ih =>
    obtain ⟨last, ⟨c, s, p⟩, hread, hclear, rfl⟩ := ih (Tier.sum.clear level) openings
    cases hclear
    exact ⟨last, _, hread, rfl, rfl⟩
  | sum op hl hr ihl ihr =>
    obtain ⟨left, before, hleft, hclear, rfl⟩ := ihl level openings
    let waiting : Level := { before with sum := some (before.closeSum left, op) }
    obtain ⟨right, ⟨c, s, p⟩, hright, hclear', rfl⟩ := ihr waiting openings
    cases hclear'
    refine ⟨right, { waiting with product := p }, ?_, hclear, rfl⟩
    rw [Reading.foldlM_operator hleft rfl]
    exact hright
  | ofSum h ih =>
    obtain ⟨last, ⟨c, s, p⟩, hread, hclear, rfl⟩ := ih .empty openings
    cases hclear
    exact ⟨last, _, hread, rfl, rfl⟩
  | comparison op hl hr ihl ihr =>
    obtain ⟨left, ⟨c, s, p⟩, hleft, hclear, rfl⟩ := ihl .empty openings
    cases hclear
    let waiting : Level := ⟨some (Level.closeSum ⟨none, s, p⟩ left, op), none, none⟩
    obtain ⟨right, ⟨c', s', p'⟩, hright, hclear', rfl⟩ := ihr waiting openings
    cases hclear'
    refine ⟨right, { waiting with sum := s', product := p' }, ?_, rfl, rfl⟩
    exact (Reading.foldlM_operator hleft rfl _).trans hright

namespace Expr

/-- The tree of a phrase is built from its tokens. -/
theorem ofTokens_of_phrase {tokens : List Token} {e : Expr} (h : Phrase .comparison tokens e) :
    ofTokens tokens = .ok e := by
  obtain ⟨last, level, hread, -, rfl⟩ := h.foldlM_next .empty []
  have hstart : tokens.foldlM Reading.next .start = .ok (.operator last level []) := hread
  rw [ofTokens, hstart]
  rfl

/-- A tree that is built from tokens is the tree of their phrase. -/
theorem phrase_of_ofTokens {tokens : List Token} {e : Expr} (h : ofTokens tokens = .ok e) :
    Phrase .comparison tokens e := by
  unfold ofTokens at h
  cases hread : tokens.foldlM Reading.next .start with
  | error fault => simp [hread, bind, Except.bind] at h
  | ok r =>
    rw [hread] at h
    exact (Reading.Spells.start.foldlM hread).phrase h

/-- Building a tree from tokens succeeds exactly for the phrases of the grammar, with the tree
that the grammar gives them, and the grammar gives them no other. -/
theorem ofTokens_eq_ok_iff_phrase (tokens : List Token) (e : Expr) :
    (ofTokens tokens = .ok e ↔ Phrase .comparison tokens e) ∧
      (Phrase .comparison tokens e → ∀ e', Phrase .comparison tokens e' → e' = e) := by
  refine ⟨⟨phrase_of_ofTokens, ofTokens_of_phrase⟩, fun h e' h' => ?_⟩
  have heq := (ofTokens_of_phrase h').symm.trans (ofTokens_of_phrase h)
  exact Except.ok.inj heq

/-- Three cells with two signs between them: a chain of differences groups to the left, and a
product in a difference stays together. -/
theorem ofTokens_eq_ok_iff_phrase_chain :
    let chain (op : Operator) : List Token := [.cell "A1", .operator (.sum .subtract), .cell "B1",
      .operator op, .cell "C1"]
    let difference (left right : Expr) : Expr := .binary (.sum .subtract) left right
    (∀ e, Phrase .comparison (chain (.sum .subtract)) e →
      e = difference (difference (.cell "A1") (.cell "B1")) (.cell "C1")) ∧
    ∀ e, Phrase .comparison (chain (.product .multiply)) e →
      e = difference (.cell "A1") (.binary (.product .multiply) (.cell "B1") (.cell "C1")) := by
  intro chain difference
  refine ⟨fun e => ?_, fun e => ?_⟩
  · have h := ofTokens_eq_ok_iff_phrase (chain (.sum .subtract))
      (difference (difference (.cell "A1") (.cell "B1")) (.cell "C1"))
    exact h.2 (h.1.mp rfl) e
  · have h := ofTokens_eq_ok_iff_phrase (chain (.product .multiply))
      (difference (.cell "A1") (.binary (.product .multiply) (.cell "B1") (.cell "C1")))
    exact h.2 (h.1.mp rfl) e

end Expr

end Spreadsheet.Formula
