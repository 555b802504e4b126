import Spreadsheet.Proofs.Formula.Descent
import Spreadsheet.Proofs.Formula.Grammar

/-!
# Viable prefixes

The beginning of a formula is viable: more tokens can make a formula of it. Whatever has been read
without a fault is viable, because an operand and the parentheses that are open can be supplied,
and what has met with a fault is not, because a fault stands whatever comes behind it. So the end
of the tokens is at fault exactly where more tokens would have helped, and any other fault is found
at the first token that nothing can follow.
-/

namespace Spreadsheet.Formula

/-- The tokens of a formula. -/
def Accepted (tokens : List Token) : Prop := ∃ e, Phrase .comparison tokens e

/-- Tokens that are those of a formula, perhaps with others behind them. -/
def Viable (tokens : List Token) : Prop := ∃ more, Accepted (tokens ++ more)

/-- With a token behind the first ones, a sequence stops being viable. -/
structure Fatal (tokens before : List Token) (t : Token) : Prop where
  /-- The sequence begins with these tokens. -/
  begins : before ++ [t] <+: tokens
  /-- They are not viable. -/
  not_viable : ¬ Viable (before ++ [t])
  /-- They are the first ones that are not. -/
  viable : ∀ shorter, shorter <+: tokens → shorter.length < (before ++ [t]).length →
    Viable shorter

/-- The tokens end in a comparison: between the parenthesis that is open and their end there are a
sum, a sign of comparison and another sum. -/
def EndsCompared (tokens : List Token) : Prop :=
  ∃ outside lefts op rights left right,
    tokens = outside ++ (lefts ++ .operator (.comparison op) :: rights) ∧
      (outside = [] ∨ outside.getLast? = some .leftParen) ∧
      Phrase .sum lefts left ∧ Phrase .sum rights right

namespace Level

variable {level : Level} {e : Expr} {op : Operator} {fault : Fault}

/-- An operator is refused only as a second comparison. -/
theorem chained_of_push (h : level.push e op = .error fault) :
    fault = .chainedComparison ∧ (∃ sign, op = .comparison sign) ∧
      ∃ left, level.comparison = some left := by
  cases op with
  | product op => cases h
  | sum op => cases h
  | comparison op =>
    cases hleft : level.comparison with
    | none => simp [push, hleft] at h
    | some left =>
      obtain rfl : .chainedComparison = fault := by simpa [push, hleft] using h
      exact ⟨rfl, ⟨op, rfl⟩, left, rfl⟩

end Level

namespace Reading

variable {r r' : Reading} {t : Token} {tokens before more : List Token} {e : Expr}
  {level : Level} {openings : List Opening} {fault : Fault}

/-- A token is refused because it cannot stand where it stands, or it is a second comparison. -/
theorem fault_of_next (h : r.next t = .error fault) : fault = .unexpectedToken t ∨
    fault = .chainedComparison ∧ (∃ sign, t = .operator (.comparison sign)) ∧
      ∃ e level openings left, r = .operator e level openings ∧ level.comparison = some left := by
  unfold next at h
  split at h
  case h_6 e level openings op =>
    cases hpush : level.push e op with
    | ok waiting => simp [hpush, Except.map] at h
    | error fault' =>
      obtain rfl : fault' = fault := by simpa [hpush, Except.map] using h
      obtain ⟨rfl, ⟨sign, rfl⟩, left, hleft⟩ := Level.chained_of_push hpush
      exact .inr ⟨rfl, ⟨sign, rfl⟩, e, level, openings, left, rfl, hleft⟩
  case h_8 =>
    cases h
    exact .inl rfl
  all_goals cases h

/-- A reading that cannot be finished has come to an unexpected end. -/
theorem fault_of_finish (h : r.finish = .error fault) : fault = .unexpectedEnd := by
  unfold finish at h
  split at h
  · cases h
  · cases h
    rfl

/-- Tokens that meet with a fault are read up to the one that is refused. -/
theorem exists_refused (h : tokens.foldlM next r = .error fault) :
    ∃ before t after r', tokens = before ++ t :: after ∧ before.foldlM next r = .ok r' ∧
      r'.next t = .error fault := by
  induction tokens generalizing r with
  | nil => cases h
  | cons t tokens ih =>
    rw [List.foldlM_cons] at h
    cases hnext : r.next t with
    | error fault' =>
      obtain rfl : fault' = fault := by simpa [hnext, bind, Except.bind] using h
      exact ⟨[], t, tokens, r, rfl, rfl, hnext⟩
    | ok between =>
      rw [hnext] at h
      obtain ⟨before, t', after, r', rfl, hbefore, hfault⟩ := ih h
      refine ⟨t :: before, t', after, r', rfl, ?_, hfault⟩
      rw [List.foldlM_cons, hnext]
      exact hbefore

/-- The parentheses that are open can be closed behind an operand. -/
theorem exists_complete_operator (e : Expr) (level : Level) (openings : List Opening) :
    ∃ more e', (operator e level openings).complete more = .ok e' := by
  induction openings generalizing e level with
  | nil => exact ⟨[], _, rfl⟩
  | cons o openings ih =>
    obtain ⟨more, e', hmore⟩ := ih (o.wrap (level.close e)) o.around
    exact ⟨.rightParen :: more, e', (complete_cons_of_ok rfl).trans hmore⟩

/-- A reading that waits for an operand can be completed. -/
theorem exists_complete_operand (level : Level) (openings : List Opening) :
    ∃ more e, (operand level openings).complete more = .ok e := by
  obtain ⟨more, e, hmore⟩ := exists_complete_operator (.cell "A1") level openings
  exact ⟨.cell "A1" :: more, e, (complete_cons_of_ok rfl).trans hmore⟩

/-- Every reading can be completed. -/
theorem exists_complete (r : Reading) : ∃ more e, r.complete more = .ok e := by
  cases r with
  | operand level openings => exact exists_complete_operand level openings
  | function f level openings =>
    obtain ⟨more, e, hmore⟩ := exists_complete_operand .empty (⟨some f, level⟩ :: openings)
    exact ⟨.leftParen :: more, e, (complete_cons_of_ok rfl).trans hmore⟩
  | operator e level openings => exact exists_complete_operator e level openings

/-- Reading tokens and completing them is completing the reading. -/
theorem complete_append (h : tokens.foldlM next r = .ok r') (more : List Token) :
    r.complete (tokens ++ more) = r'.complete more := by
  rw [complete, foldlM_append_of_ok h, complete]

theorem complete_append_of_error (h : tokens.foldlM next r = .error fault) (more : List Token) :
    r.complete (tokens ++ more) = .error fault := by
  rw [complete, List.foldlM_append, h]
  rfl

end Reading

open Reading

variable {tokens before after more : List Token} {t : Token} {r : Reading} {fault : Fault}

/-- Tokens are accepted exactly if the reading can be finished behind them. -/
theorem accepted_iff : Accepted tokens ↔ ∃ e, start.complete tokens = .ok e :=
  exists_congr fun _ => ⟨Expr.ofTokens_of_phrase, Expr.phrase_of_ofTokens⟩

/-- Tokens that are read without a fault are viable. -/
theorem viable_of_foldlM (h : tokens.foldlM next start = .ok r) : Viable tokens := by
  obtain ⟨more, e, hmore⟩ := r.exists_complete
  exact ⟨more, accepted_iff.mpr ⟨e, (complete_append h more).trans hmore⟩⟩

/-- Tokens that meet with a fault are not. -/
theorem not_viable_of_foldlM (h : tokens.foldlM next start = .error fault) : ¬ Viable tokens := by
  rintro ⟨more, haccepted⟩
  obtain ⟨e, he⟩ := accepted_iff.mp haccepted
  rw [complete_append_of_error h] at he
  cases he

/-- What comes first in a viable list of tokens is viable. -/
theorem Viable.shorten {shorter : List Token} (h : Viable tokens)
    (hshorter : shorter <+: tokens) : Viable shorter := by
  obtain ⟨more, haccepted⟩ := h
  obtain ⟨between, rfl⟩ := hshorter
  exact ⟨between ++ more, List.append_assoc shorter between more ▸ haccepted⟩

/-- A token that is refused is the fault of the list that ends in it. -/
theorem foldlM_concat_of_refused (hbefore : before.foldlM next start = .ok r)
    (hfault : r.next t = .error fault) : (before ++ [t]).foldlM next start = .error fault := by
  rw [foldlM_append_of_ok hbefore, List.foldlM_cons, hfault]
  rfl

/-- The token that is refused is the first one behind which no tokens make a formula. -/
theorem fatal_of_refused (hbefore : before.foldlM next start = .ok r)
    (hfault : r.next t = .error fault) : Fatal (before ++ t :: after) before t where
  begins := ⟨after, by simp⟩
  not_viable := not_viable_of_foldlM (foldlM_concat_of_refused hbefore hfault)
  viable shorter hshorter hlt := by
    have hle : shorter.length ≤ before.length := by
      rw [List.length_append, List.length_singleton] at hlt
      omega
    exact (viable_of_foldlM hbefore).shorten
      (List.prefix_of_prefix_length_le hshorter (List.prefix_append _ _) hle)

/-- What is outside the innermost parenthesis ends with it. -/
theorem Opening.Spell.getLast? {openings : List Opening} {outside : List Token}
    (h : Opening.Spell openings outside) :
    outside = [] ∨ outside.getLast? = some .leftParen := by
  cases h with
  | nil => exact .inl rfl
  | @cons o openings outside around ho ha =>
    rcases o with ⟨unary, around⟩
    right
    cases unary <;> simp [Opening.tokens]

/-- Where an operand is read and a comparison waits, the tokens end in a comparison. -/
theorem endsCompared_of_spells {e : Expr} {level : Level} {openings : List Opening}
    {left : Expr × Comparison} (h : (operator e level openings).Spells tokens)
    (hleft : level.comparison = some left) : EndsCompared tokens := by
  cases h with
  | @operator _ _ _ outside waiting last ho hw he =>
    obtain @⟨c, s, p, comparing, adding, multiplying, hc, hs, hp⟩ := hw
    obtain rfl : c = some left := hleft
    cases hc with
    | @left lefts e' op hl =>
      refine ⟨outside, lefts, op, adding ++ (multiplying ++ last), e', _, ?_, ho.getLast?, hl,
        Level.phrase_closeSum (c := none) hs hp he⟩
      simp

/-- Tokens that are read without a fault are a formula, or their end is at fault. -/
theorem ofTokens_of_foldlM (h : tokens.foldlM next start = .ok r) :
    (∃ e, Expr.ofTokens tokens = .ok e) ∨ Expr.ofTokens tokens = .error .unexpectedEnd := by
  have hfinish : Expr.ofTokens tokens = r.finish := by
    rw [Expr.ofTokens, h]
    rfl
  cases hr : r.finish with
  | ok e => exact .inl ⟨e, hfinish.trans hr⟩
  | error fault => exact .inr ((fault_of_finish hr) ▸ hfinish.trans hr)

/-- Tokens that meet with a fault have a first one that is fatal. -/
theorem ofTokens_of_refused (h : tokens.foldlM next start = .error fault) :
    (∃ t before, Expr.ofTokens tokens = .error (.unexpectedToken t) ∧ Fatal tokens before t) ∨
      Expr.ofTokens tokens = .error .chainedComparison ∧ ∃ before sign,
        Fatal tokens before (.operator (.comparison sign)) ∧ EndsCompared before := by
  have hfault : Expr.ofTokens tokens = .error fault := by
    rw [Expr.ofTokens, h]
    rfl
  obtain ⟨before, t, after, r', rfl, hbefore, hrefused⟩ := exists_refused h
  have hfatal : Fatal (before ++ t :: after) before t := fatal_of_refused hbefore hrefused
  rcases fault_of_next hrefused with rfl | ⟨rfl, ⟨sign, rfl⟩, e, level, openings, left, rfl, hleft⟩
  · exact .inl ⟨t, before, hfault, hfatal⟩
  · have hspells := Spells.start.foldlM hbefore
    exact .inr ⟨hfault, before, sign, hfatal, endsCompared_of_spells hspells hleft⟩

/-- Descending through the tiers and reading in one pass give the same tree or fault. The end of
the tokens is at fault exactly if they are no formula but viable, and another fault is found exactly
if they are not viable. Then the token at fault is the first one behind which no tokens make a
formula; for a chained comparison it is a sign of comparison behind a comparison of the same
level. -/
theorem ofTokens_fault_viable (tokens : List Token) :
    Descent.parse tokens = Expr.ofTokens tokens ∧
    (Expr.ofTokens tokens = .error .unexpectedEnd ↔ ¬ Accepted tokens ∧ Viable tokens) ∧
    ((∃ t, Expr.ofTokens tokens = .error (.unexpectedToken t)) ∨
      Expr.ofTokens tokens = .error .chainedComparison ↔ ¬ Viable tokens) ∧
    (∀ t, Expr.ofTokens tokens = .error (.unexpectedToken t) → ∃ before, Fatal tokens before t) ∧
    (Expr.ofTokens tokens = .error .chainedComparison → ∃ before sign,
      Fatal tokens before (.operator (.comparison sign)) ∧ EndsCompared before) := by
  refine ⟨Descent.parse_eq_ofTokens tokens, ?_⟩
  have haccepted : Accepted tokens ↔ ∃ e, Expr.ofTokens tokens = .ok e := accepted_iff
  cases hread : tokens.foldlM next start with
  | ok r =>
    have hviable := viable_of_foldlM hread
    rw [haccepted]
    rcases ofTokens_of_foldlM hread with ⟨e, he⟩ | hend
    · simp [he, hviable]
    · simp [hend, hviable]
  | error fault =>
    have hviable := not_viable_of_foldlM hread
    rcases ofTokens_of_refused hread with ⟨t, before, ht, hfatal⟩ | ⟨hchained, hsecond⟩
    · have hnamed : ∀ t', Expr.ofTokens tokens = .error (.unexpectedToken t') →
          ∃ before, Fatal tokens before t' := by
        intro t' ht'
        obtain rfl : t = t' := by simpa using ht.symm.trans ht'
        exact ⟨before, hfatal⟩
      refine ⟨?_, ?_, hnamed, ?_⟩ <;> simp [ht, hviable]
    · refine ⟨?_, ?_, ?_, fun _ => hsecond⟩ <;> simp [hchained, hviable]

/-- What is missing behind an open parenthesis, a cell behind a cell, and a second comparison. -/
theorem ofTokens_fault_viable_cells :
    (¬ Accepted [.leftParen, .cell "A1"] ∧ Viable [.leftParen, .cell "A1"]) ∧
    (∃ before, Fatal [.cell "A1", .cell "B1", .rightParen] before (.cell "B1")) ∧
    (∃ before sign, Fatal [.cell "A1", .operator (.comparison .less), .cell "B1",
        .operator (.comparison .equal), .cell "C1"] before (.operator (.comparison sign)) ∧
      EndsCompared before) :=
  ⟨(ofTokens_fault_viable _).2.1.mp rfl, (ofTokens_fault_viable _).2.2.2.1 _ rfl,
    (ofTokens_fault_viable _).2.2.2.2 rfl⟩

end Spreadsheet.Formula
