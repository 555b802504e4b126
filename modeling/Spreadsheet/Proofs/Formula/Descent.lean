import Spreadsheet.Formula.Expr.Parser

/-!
# Building a tree by descent

A tree can also be built by descending through the tiers: a comparison asks for sums, a sum for
products, a product for operands, and an operand in parentheses for a comparison again. Sums and
products loop over their operators, and each step looks at one token ahead. Every part takes a
token at least, so the descent comes to an end.

Descending and reading in one pass agree on every token sequence, in the tree and in the fault.
Every part of the descent is matched with the reading in which it begins and the one in which it
ends, token by token.
-/

namespace Spreadsheet.Formula

namespace Descent

/-- A tree that the first tokens of a sequence spell. -/
structure Parsed (tokens : List Token) where
  /-- The tree. -/
  tree : Expr
  /-- The tokens behind those of the tree. -/
  rest : List Token
  /-- The tree has a token at least. -/
  shorter : rest.length < tokens.length

variable {tokens rest : List Token} {t : Token}

namespace Parsed

/-- A tree of which the first token was read before. -/
def cons (t : Token) (found : Parsed rest) (tree : Expr) : Parsed (t :: rest) where
  tree := tree
  rest := found.rest
  shorter := Nat.lt_succ_of_lt found.shorter

theorem rest_length_lt (found : Parsed tokens) (h : found.rest = t :: rest) :
    rest.length < found.rest.length := by
  rw [h]
  exact Nat.lt_succ_self _

/-- A tree that goes on with a token and another tree. -/
def append (found : Parsed tokens) (h : found.rest = t :: rest) (next : Parsed rest)
    (tree : Expr) : Parsed tokens where
  tree := tree
  rest := next.rest
  shorter := Nat.lt_trans next.shorter (Nat.lt_trans (found.rest_length_lt h) found.shorter)

end Parsed

/-- The tree at the head of a sequence of tokens, or a fault. -/
abbrev Result (tokens : List Token) := Except Fault (Parsed tokens)

/-- The first token cannot stand where it stands, or there is none where one must stand. -/
def unexpected : List Token → Fault
  | t :: _ => .unexpectedToken t
  | [] => .unexpectedEnd

mutual

/-- A sum, or two sums with a sign of comparison between them and none behind them. -/
def comparison (tokens : List Token) : Result tokens := do
  let left ← sum tokens
  match h : left.rest with
  | .operator (.comparison op) :: rest =>
    let right ← sum rest
    match right.rest with
    | .operator (.comparison _) :: _ => throw .chainedComparison
    | _ => return left.append h right (.binary (.comparison op) left.tree right.tree)
  | _ => return left
termination_by (tokens.length, 3)
decreasing_by
  · exact Prod.Lex.right _ (by decide)
  · exact Prod.Lex.left _ _ (Nat.lt_trans (left.rest_length_lt h) left.shorter)

/-- A product, and what is added to it. -/
def sum (tokens : List Token) : Result tokens := do
  sumFrom (← product tokens)
termination_by (tokens.length, 2)
decreasing_by
  · exact Prod.Lex.right _ (by decide)
  · rename_i left
    exact Prod.Lex.left _ _ left.shorter

/-- What is added to a sum. -/
def sumFrom {tokens : List Token} (left : Parsed tokens) : Result tokens :=
  match h : left.rest with
  | .operator (.sum op) :: rest => do
    let right ← product rest
    sumFrom (left.append h right (.binary (.sum op) left.tree right.tree))
  | _ => return left
termination_by (left.rest.length, 0)
decreasing_by
  · exact Prod.Lex.left _ _ (left.rest_length_lt h)
  · exact Prod.Lex.left _ _ (Nat.lt_trans right.shorter (left.rest_length_lt h))

/-- An operand, and what it is multiplied by. -/
def product (tokens : List Token) : Result tokens := do
  productFrom (← operand tokens)
termination_by (tokens.length, 1)
decreasing_by
  · exact Prod.Lex.right _ (by decide)
  · rename_i left
    exact Prod.Lex.left _ _ left.shorter

/-- What a product is multiplied by. -/
def productFrom {tokens : List Token} (left : Parsed tokens) : Result tokens :=
  match h : left.rest with
  | .operator (.product op) :: rest => do
    let right ← operand rest
    productFrom (left.append h right (.binary (.product op) left.tree right.tree))
  | _ => return left
termination_by (left.rest.length, 0)
decreasing_by
  · exact Prod.Lex.left _ _ (left.rest_length_lt h)
  · exact Prod.Lex.left _ _ (Nat.lt_trans right.shorter (left.rest_length_lt h))

/-- A number, a cell, or a comparison in parentheses. -/
def operand (tokens : List Token) : Result tokens :=
  match tokens with
  | .number value :: rest => return ⟨.number value, rest, Nat.lt_succ_self _⟩
  | .cell name :: rest => return ⟨.cell name, rest, Nat.lt_succ_self _⟩
  | .leftParen :: rest => do
    let group ← inside rest
    return group.cons .leftParen group.tree
  | .unary f :: .leftParen :: rest => do
    let argument ← inside rest
    return (argument.cons .leftParen argument.tree).cons (.unary f) (.call f argument.tree)
  | .unary _ :: rest => throw (unexpected rest)
  | tokens => throw (unexpected tokens)
termination_by (tokens.length, 0)
decreasing_by
  · exact Prod.Lex.left _ _ (Nat.lt_succ_self _)
  · exact Prod.Lex.left _ _ (Nat.lt_succ_of_lt (Nat.lt_succ_self _))

/-- A comparison up to the parenthesis that closes it. -/
def inside (tokens : List Token) : Result tokens := do
  let found ← comparison tokens
  match h : found.rest with
  | .rightParen :: rest =>
    return ⟨found.tree, rest, Nat.lt_trans (found.rest_length_lt h) found.shorter⟩
  | rest => throw (unexpected rest)
termination_by (tokens.length, 4)
decreasing_by exact Prod.Lex.right _ (by decide)

end

/-- The tree of a token sequence. -/
def parse (tokens : List Token) : Except Fault Expr := do
  let found ← comparison tokens
  match found.rest with
  | [] => return found.tree
  | t :: _ => throw (.unexpectedToken t)

end Descent

namespace Reading

variable {r : Reading} {t : Token} {tokens : List Token}

/-- The tree of a formula of which the last tokens are left to read. -/
def complete (r : Reading) (tokens : List Token) : Except Fault Expr := do
  (← tokens.foldlM next r).finish

/-- A token that can be read is read first. -/
theorem complete_cons_of_ok {r' : Reading} (h : r.next t = .ok r') :
    r.complete (t :: tokens) = r'.complete tokens := by
  rw [complete, List.foldlM_cons, h]
  rfl

/-- A token that cannot be read ends the reading. -/
theorem complete_cons_of_error {fault : Fault} (h : r.next t = .error fault) :
    r.complete (t :: tokens) = .error fault := by
  rw [complete, List.foldlM_cons, h]
  rfl

/-- An operand and what waits for it can be read for another operand and what waits for that one,
if they close alike and leave the same to wait in front of the next operator. -/
theorem complete_operator_congr {e e' : Expr} {level level' : Level} {openings : List Opening}
    (hclose : level.close e = level'.close e')
    (hpush : ∀ op, tokens.head? = some (.operator op) → level.push e op = level'.push e' op) :
    (operator e level openings).complete tokens =
      (operator e' level' openings).complete tokens := by
  cases tokens with
  | nil =>
    change (operator e level openings).finish = (operator e' level' openings).finish
    cases openings with
    | nil => rw [finish, finish, hclose]
    | cons o openings => rfl
  | cons t tokens =>
    have hnext : (operator e level openings).next t = (operator e' level' openings).next t := by
      cases t with
      | operator op => rw [next, next, hpush op rfl]
      | rightParen =>
        cases openings with
        | nil => rfl
        | cons o openings => rw [next, next, hclose]
      | number | cell | unary | leftParen => rfl
    rw [complete, complete, List.foldlM_cons, List.foldlM_cons, hnext]

end Reading

namespace Descent

open Reading

/-- A part of the descent and the reading of the same tokens meet with the same fault, or the part
stops with a tree, and what is left is read as if the tree had just been read. -/
inductive Agrees (tokens : List Token) (due : Reading) (read : Expr → Reading)
    (stops : List Token → Prop) {all : List Token} : Result all → Prop where
  | fault {fault : Fault} (h : due.complete tokens = .error fault) :
    Agrees tokens due read stops (throw fault)
  | reads {found : Parsed all} (hstops : stops found.rest)
    (h : due.complete tokens = (read found.tree).complete found.rest) :
    Agrees tokens due read stops (pure found)

variable {tokens rest all all' : List Token} {t : Token} {due due' : Reading}
  {read read' : Expr → Reading} {stops stops' : List Token → Prop} {result : Result all}

namespace Agrees

theorem refused (h : due.next t = .error (.unexpectedToken t)) :
    Agrees (t :: rest) due read stops (throw (unexpected (t :: rest)) : Result all) :=
  .fault (complete_cons_of_error h)

theorem ended (h : due.finish = .error .unexpectedEnd) :
    Agrees [] due read stops (throw (unexpected []) : Result all) := .fault h

/-- Both take a token and go on. -/
theorem step (htokens : tokens = t :: rest) (hnext : due.next t = .ok due')
    (h : Agrees rest due' read stops result) : Agrees tokens due read stops result := by
  subst htokens
  cases h with
  | fault h => exact .fault ((complete_cons_of_ok hnext).trans h)
  | reads hstops h => exact .reads hstops ((complete_cons_of_ok hnext).trans h)

/-- What follows a part goes on from where the part stops. -/
theorem bind {next : Parsed all → Result all'} (h : Agrees tokens due read stops result)
    (hnext : ∀ found : Parsed all, stops found.rest →
      Agrees found.rest (read found.tree) read' stops' (next found)) :
    Agrees tokens due read' stops' (result >>= next) := by
  cases h with
  | fault h => exact .fault h
  | @reads found hstops h =>
    have hlast := hnext found hstops
    change Agrees tokens due read' stops' (next found)
    generalize next found = last at hlast ⊢
    cases hlast with
    | fault h' => exact .fault (h.trans h')
    | reads hstops' h' => exact .reads hstops' (h.trans h')

end Agrees

/-- No product goes on here. -/
def EndsProduct (tokens : List Token) : Prop :=
  ∀ op, tokens.head? ≠ some (.operator (.product op))

/-- No sum goes on here. -/
def EndsSum (tokens : List Token) : Prop :=
  EndsProduct tokens ∧ ∀ op, tokens.head? ≠ some (.operator (.sum op))

/-- No comparison goes on here. -/
def EndsComparison (tokens : List Token) : Prop :=
  ∀ op, tokens.head? ≠ some (.operator op)

/-- Descending into a comparison agrees with reading one. -/
def ComparisonAgrees (tokens : List Token) : Prop :=
  ∀ openings, Agrees tokens (.operand .empty openings) (.operator · .empty openings)
    EndsComparison (comparison tokens)

/-- Descending into an operand agrees with reading one. -/
def OperandAgrees (tokens : List Token) : Prop :=
  ∀ level openings, Agrees tokens (.operand level openings) (.operator · level openings)
    (fun _ => True) (operand tokens)

variable {c : Option (Expr × Comparison)} {s : Option (Expr × SumOp)}
  {p : Option (Expr × ProductOp)} {openings : List Opening}

/-- Inside parentheses the descent agrees with the reading from the open parenthesis on. -/
theorem inside_agrees (h : ComparisonAgrees tokens) (o : Opening) (openings : List Opening) :
    Agrees tokens (.operand .empty (o :: openings))
      (fun e => .operator (o.wrap e) o.around openings) (fun _ => True) (inside tokens) := by
  rw [inside]
  refine (h _).bind fun found hstops => ?_
  split
  · rename_i rest hrest
    exact .step hrest rfl (.reads trivial rfl)
  · rename_i hother
    generalize found.rest = rest at hstops hother ⊢
    match rest with
    | [] => exact .ended rfl
    | .rightParen :: rest => exact absurd rfl (hother rest)
    | .operator op :: rest => exact absurd rfl (hstops op)
    | .number _ :: _ | .cell _ :: _ | .unary _ :: _ | .leftParen :: _ => exact .refused rfl

/-- At an operand both agree if they do on what is inside it. -/
theorem operand_agrees (h : ∀ rest, rest.length < tokens.length → ComparisonAgrees rest) :
    OperandAgrees tokens := by
  intro level openings
  unfold operand
  match tokens with
  | [] => exact .ended rfl
  | .number value :: rest => exact .step rfl rfl (.reads trivial rfl)
  | .cell name :: rest => exact .step rfl rfl (.reads trivial rfl)
  | .leftParen :: rest =>
    have hinside := inside_agrees (h rest (Nat.lt_succ_self _)) ⟨none, level⟩ openings
    exact .step rfl rfl (hinside.bind fun found _ => .reads trivial rfl)
  | .unary f :: .leftParen :: rest =>
    have hshorter : rest.length < rest.length + 1 + 1 := by omega
    have hinside := inside_agrees (h rest hshorter) ⟨some f, level⟩ openings
    exact .step rfl rfl (.step rfl rfl (hinside.bind fun found _ => .reads trivial rfl))
  | [.unary f] => exact .step rfl rfl (.ended rfl)
  | .unary _ :: .number _ :: _ | .unary _ :: .cell _ :: _ | .unary _ :: .operator _ :: _
  | .unary _ :: .unary _ :: _ | .unary _ :: .rightParen :: _ => exact .step rfl rfl (.refused rfl)
  | .operator _ :: _ | .rightParen :: _ => exact .refused rfl

/-- The operators of a product are read from left to right. -/
theorem productFrom_agrees (left : Parsed all) {last : Expr}
    (htree : left.tree = Level.closeProduct ⟨c, s, p⟩ last)
    (h : ∀ rest, rest.length < left.rest.length → OperandAgrees rest) :
    Agrees left.rest (.operator last ⟨c, s, p⟩ openings) (.operator · ⟨c, s, none⟩ openings)
      EndsProduct (productFrom left) := by
  induction hn : left.rest.length using Nat.strongRecOn generalizing left last p with
  | _ n ih =>
    unfold productFrom
    split
    · rename_i op rest hrest
      have hlt := left.rest_length_lt hrest
      refine .step hrest rfl ((h rest hlt _ _).bind fun right _ => ?_)
      have hle : right.rest.length < n := hn ▸ Nat.lt_trans right.shorter hlt
      refine ih _ hle (left.append hrest right _) ?_ ?_ rfl
      · rw [htree]
        rfl
      · exact fun ts hts => h ts (Nat.lt_trans hts (hn ▸ hle))
    · rename_i hends
      have hstops : EndsProduct left.rest := by
        intro op hhead
        obtain ⟨rest, hrest⟩ := List.head?_eq_some_iff.mp hhead
        exact hends op rest hrest
      refine .reads hstops ?_
      rw [htree]
      refine complete_operator_congr rfl fun op hhead => ?_
      cases op with
      | product op => exact absurd hhead (hstops op)
      | sum op => rfl
      | comparison op => cases c <;> rfl

/-- At a product both agree if they do on its operands. -/
theorem product_agrees (h : ∀ rest, rest.length ≤ tokens.length → OperandAgrees rest) :
    Agrees tokens (.operand ⟨c, s, none⟩ openings) (.operator · ⟨c, s, none⟩ openings) EndsProduct
      (product tokens) := by
  rw [product]
  refine (h tokens (Nat.le_refl _) _ _).bind fun left _ => ?_
  exact productFrom_agrees left rfl fun rest hlt =>
    h rest (Nat.le_of_lt (Nat.lt_trans hlt left.shorter))

/-- So are the operators of a sum. -/
theorem sumFrom_agrees (left : Parsed all) {last : Expr} (hends : EndsProduct left.rest)
    (htree : left.tree = Level.closeSum ⟨c, s, none⟩ last)
    (h : ∀ rest, rest.length < left.rest.length → OperandAgrees rest) :
    Agrees left.rest (.operator last ⟨c, s, none⟩ openings) (.operator · ⟨c, none, none⟩ openings)
      EndsSum (sumFrom left) := by
  induction hn : left.rest.length using Nat.strongRecOn generalizing left last s with
  | _ n ih =>
    unfold sumFrom
    split
    · rename_i op rest hrest
      have hlt := left.rest_length_lt hrest
      have hproduct : Agrees rest (.operand ⟨c, some (left.tree, op), none⟩ openings)
          (.operator · ⟨c, some (left.tree, op), none⟩ openings) EndsProduct (product rest) :=
        product_agrees fun ts hts => h ts (Nat.lt_of_le_of_lt hts hlt)
      refine .step hrest ?_ (hproduct.bind fun right hends' => ?_)
      · rw [htree]
        rfl
      · have hle : right.rest.length < n := hn ▸ Nat.lt_trans right.shorter hlt
        exact ih _ hle (left.append hrest right _) hends' rfl
          (fun ts hts => h ts (Nat.lt_trans hts (hn ▸ hle))) rfl
    · rename_i hother
      have hstops : EndsSum left.rest := by
        refine ⟨hends, fun op hhead => ?_⟩
        obtain ⟨rest, hrest⟩ := List.head?_eq_some_iff.mp hhead
        exact hother op rest hrest
      refine .reads hstops ?_
      rw [htree]
      refine complete_operator_congr rfl fun op hhead => ?_
      cases op with
      | product op => exact absurd hhead (hstops.1 op)
      | sum op => exact absurd hhead (hstops.2 op)
      | comparison op => cases c <;> rfl

/-- At a sum both agree if they do on its operands. -/
theorem sum_agrees (h : ∀ rest, rest.length ≤ tokens.length → OperandAgrees rest) :
    Agrees tokens (.operand ⟨c, none, none⟩ openings) (.operator · ⟨c, none, none⟩ openings) EndsSum
      (sum tokens) := by
  rw [sum]
  refine (product_agrees h).bind fun left hends => ?_
  exact sumFrom_agrees left hends rfl fun rest hlt =>
    h rest (Nat.le_of_lt (Nat.lt_trans hlt left.shorter))

/-- A sum that no comparison follows ends a comparison. -/
theorem EndsSum.endsComparison (h : EndsSum tokens)
    (hother : ∀ op rest, tokens ≠ .operator (.comparison op) :: rest) : EndsComparison tokens := by
  intro op hhead
  cases op with
  | product op => exact h.1 op hhead
  | sum op => exact h.2 op hhead
  | comparison op =>
    obtain ⟨rest, htokens⟩ := List.head?_eq_some_iff.mp hhead
    exact hother op rest htokens

/-- A second sign of comparison is met where the right side of the first one ends. -/
theorem comparison_agrees (h : ∀ rest, rest.length ≤ tokens.length → OperandAgrees rest) :
    ComparisonAgrees tokens := by
  intro openings
  rw [comparison]
  refine (sum_agrees h).bind fun left hends => ?_
  split
  · rename_i op rest hrest
    have hshorter : rest.length < tokens.length :=
      Nat.lt_trans (left.rest_length_lt hrest) left.shorter
    have hsum : Agrees rest (.operand ⟨some (left.tree, op), none, none⟩ openings)
        (.operator · ⟨some (left.tree, op), none, none⟩ openings) EndsSum (sum rest) :=
      sum_agrees fun ts hts => h ts (Nat.le_trans hts (Nat.le_of_lt hshorter))
    refine .step hrest rfl (hsum.bind fun right hends' => ?_)
    split
    · rename_i sign rest' hrest'
      rw [hrest']
      exact .fault (complete_cons_of_error rfl)
    · rename_i hother
      have hstops := hends'.endsComparison fun op rest heq => hother op rest heq
      exact .reads hstops (complete_operator_congr rfl fun op hhead => absurd hhead (hstops op))
  · rename_i hother
    exact .reads (hends.endsComparison fun op rest heq => hother op rest heq) rfl

/-- Every operand is shorter than the tokens in which it stands, so all parts agree. -/
theorem operandAgrees (tokens : List Token) : OperandAgrees tokens := by
  induction hn : tokens.length using Nat.strongRecOn generalizing tokens with
  | _ n ih =>
    subst hn
    exact operand_agrees fun rest hlt =>
      comparison_agrees fun ts hts => ih ts.length (Nat.lt_of_le_of_lt hts hlt) ts rfl

/-- Descending gives the tree or the fault that one pass over the tokens gives. -/
theorem parse_eq_ofTokens (tokens : List Token) : parse tokens = Expr.ofTokens tokens := by
  have hstart : Expr.ofTokens tokens = Reading.start.complete tokens := rfl
  have hcomparison : ComparisonAgrees tokens := comparison_agrees fun rest _ => operandAgrees rest
  have hagrees := hcomparison []
  rw [hstart, parse]
  generalize comparison tokens = result at hagrees
  cases hagrees with
  | fault h => exact h.symm
  | @reads found hstops h =>
    have hcomplete : Reading.start.complete tokens =
        (Reading.operator found.tree .empty []).complete found.rest := h
    rw [hcomplete, pure_bind]
    generalize found.rest = rest at hstops
    match rest with
    | [] => rfl
    | .operator op :: rest => exact absurd rfl (hstops op)
    | .number _ :: _ | .cell _ :: _ | .unary _ :: _ | .leftParen :: _ | .rightParen :: _ =>
      exact (complete_cons_of_error rfl).symm

end Descent

end Spreadsheet.Formula
