import Spreadsheet.Proofs.Sheet.Finiteness
import Spreadsheet.Proofs.Sheet.Nesting

/-!
# Evaluations keep to finite numbers

Only the results of arithmetic are tested for being finite. Nothing else needs the test: whatever
the history of queries, every number that is answered, settled, read by a formula or handed to an
operator is finite, between the queries and in the middle of a resolution.
-/

namespace Spreadsheet

/-- A finite number, or no number at all. -/
def Value.IsFinite (v : Value) : Prop := ∀ x, v = .number x → x.isFinite = true

/-- All values that are settled are finite. -/
def Memo.IsFinite (memo : Memo) : Prop :=
  ∀ (a : Address) (v : Value), memo[a]? = some v → v.IsFinite

/-- The value of a cell without a formula is finite. -/
theorem Content.isFinite_value (content : Content) : content.value.IsFinite := by
  intro x hx
  unfold value at hx
  split at hx
  · rename_i y hy
    cases hx
    exact isFinite_of_number? hy
  · cases hx

namespace Formula

/-- In the evaluation of a tree from a state, an operator is applied to two values. An operand that
is an error ends the evaluation, so neither of the two is one. -/
inductive Expr.Applies {σ : Type} (act : Address → StateM σ Value) :
    Expr → σ → Operator → Value → Value → Prop where
  /-- The tree's own operator; its right operand is evaluated from where the left one stopped. -/
  | operator {op : Operator} {left right : Expr} {m : σ}
    (hleft : (left.evaluate act m).1.isOk = true)
    (hright : (right.evaluate act (left.evaluate act m).2).1.isOk = true) :
    Applies act (.binary op left right) m op (left.evaluate act m).1
      (right.evaluate act (left.evaluate act m).2).1
  /-- An operator in the argument of a function. -/
  | argument {f : Unary} {e : Expr} {m : σ} {op : Operator} {a b : Value}
    (h : Applies act e m op a b) : Applies act (.call f e) m op a b
  /-- An operator in the left operand. -/
  | left {outer : Operator} {left right : Expr} {m : σ} {op : Operator} {a b : Value}
    (h : Applies act left m op a b) : Applies act (.binary outer left right) m op a b
  /-- An operator in the right operand, if the left one is no error. -/
  | right {outer : Operator} {left right : Expr} {m : σ} {op : Operator} {a b : Value}
    (hleft : (left.evaluate act m).1.isOk = true)
    (h : Applies act right (left.evaluate act m).2 op a b) :
    Applies act (.binary outer left right) m op a b

end Formula

namespace Sheet

/-- The memos that queries lead to. Reading a cell for a formula is a query for the cell, so what
is settled in the middle of a query arises too. -/
inductive Arises (s : Sheet) : Memo → Prop where
  /-- Nothing is settled at first. -/
  | empty : s.Arises ∅
  /-- A query is answered. -/
  | ask {memo : Memo} (h : s.Arises memo) (q : Query) : s.Arises (q.ask s memo).2

/-- The resolutions under way while queries are answered. -/
inductive Resolves (s : Sheet) : Resolution → Prop where
  /-- A formula cell that is not settled is read. -/
  | start {memo : Memo} {a : Address} (hmemo : s.Arises memo) (hnew : a ∉ memo)
    (ha : s.isFormula a = true) : s.Resolves (Resolution.start s memo a)
  /-- The resolution takes a step. -/
  | step {r r' : Resolution} (h : s.Resolves r) (hstep : r.step s = .running r') : s.Resolves r'

/-- While queries are answered, an operator is applied to two values. -/
inductive Applies (s : Sheet) : Formula.Operator → Value → Value → Prop where
  /-- In the evaluation of a formula that is asked for. -/
  | query {memo : Memo} {text : String} {e : Formula.Expr} {op : Formula.Operator} {a b : Value}
    (hmemo : s.Arises memo) (he : Formula.tree? text = some e)
    (h : e.Applies s.cellValue memo op a b) : s.Applies op a b
  /-- In the evaluation of the innermost cell of a resolution, which settles nothing. -/
  | resolution {r : Resolution} {text : String} {e : Formula.Expr} {op : Formula.Operator}
    {a b : Value} (hr : s.Resolves r) (hleft : r.top.left = [])
    (ht : s.text? r.top.cell = some text) (he : Formula.tree? text = some e)
    (h : e.Applies (fun a => (pure (r.read s a) : StateM Unit Value)) () op a b) :
    s.Applies op a b

variable {s : Sheet} {memo : Memo} {r : Resolution} {subject : Subject} {v a b : Value}
  {op : Formula.Operator}

/-- What arises has derivations. -/
theorem Arises.backed (h : s.Arises memo) : s.Backed memo := by
  induction h with
  | empty => exact .empty s
  | ask h q ih => exact (ih.ask q).2

/-- Reading a cell gives an admitted value, and what is settled then arises too. -/
theorem Arises.cellValue (h : s.Arises memo) (c : Address) :
    s.Admits (.cell c) (s.cellValue c memo).1 ∧ s.Arises (s.cellValue c memo).2 :=
  ⟨(h.backed.cellValue c).1, h.ask (.cell c)⟩

/-- A step settles the innermost cell with a derived value or leaves the memo alone. -/
theorem Resolves.sound (h : s.Resolves r) :
    ∃ base, Resolution.Sound s base r ∧ s.Admitted r.memo := by
  induction h with
  | @start memo a hmemo hnew ha =>
    exact ⟨a, .start hmemo.backed.covered hnew ha, hmemo.backed.admitted⟩
  | step h hstep ih =>
    obtain ⟨base, hsound, hadmitted⟩ := ih
    obtain ⟨hsound', hmemo | ⟨_, hmemo⟩⟩ := hsound.step_running hstep
    · exact ⟨base, hsound', hmemo ▸ hadmitted⟩
    · exact ⟨base, hsound', hmemo ▸ hadmitted.settle hsound⟩

/-- An admitted value is finite. -/
theorem Admits.isFinite (h : s.Admits subject v) (hsubject : Finite subject) : v.IsFinite := by
  rintro x rfl
  exact (h rfl).isFinite hsubject rfl

theorem Admitted.isFinite (h : s.Admitted memo) : memo.IsFinite :=
  fun a v hv => (h a v hv).isFinite trivial

theorem finite_of_tree? {text : String} {e : Formula.Expr} (h : Formula.tree? text = some e) :
    Finite (.tree e) := fun _ => Formula.isFinite_of_tree? h

theorem Finite.left {left right : Formula.Expr} (h : Finite (.tree (.binary op left right))) :
    Finite (.tree left) := fun x hx => h x (List.mem_append_left _ hx)

theorem Finite.right {left right : Formula.Expr} (h : Finite (.tree (.binary op left right))) :
    Finite (.tree right) := fun x hx => h x (List.mem_append_right _ hx)

/-- The operands of a tree with finite numbers are derived, as its cells are. -/
theorem isFinite_of_applies {σ : Type} {act : Address → StateM σ Value} {good : σ → Prop}
    (hact : ∀ a m, good m → s.Admits (.cell a) (act a m).1 ∧ good (act a m).2)
    {e : Formula.Expr} {m : σ} (h : e.Applies act m op a b) (hm : good m)
    (he : Finite (.tree e)) : a.IsFinite ∧ b.IsFinite := by
  induction h with
  | @operator op left right m hleft hright =>
    obtain ⟨ha, hm'⟩ := admits_evaluate_tree hact left hm
    obtain ⟨hb, _⟩ := admits_evaluate_tree hact right hm'
    exact ⟨ha.isFinite he.left, hb.isFinite he.right⟩
  | argument h ih => exact ih hm he
  | left h ih => exact ih hm he.left
  | @right outer left right m op a b hleft h ih =>
    exact ih (admits_evaluate_tree hact left hm).2 he.right

/-- The operands of every operator that is applied are finite. -/
theorem Applies.isFinite (h : s.Applies op a b) : a.IsFinite ∧ b.IsFinite := by
  cases h with
  | query hmemo he h =>
    exact isFinite_of_applies (fun c _ hm => hm.cellValue c) h hmemo (finite_of_tree? he)
  | @resolution r text e _ _ _ hr hleft ht he h =>
    obtain ⟨base, hsound, hadmitted⟩ := hr.sound
    let good : Unit → Prop := fun _ => True
    have hact : ∀ a m, good m → s.Admits (.cell a) (r.read s a) ∧ good m :=
      fun a _ _ => ⟨admits_read hadmitted a, trivial⟩
    exact isFinite_of_applies hact h trivial (finite_of_tree? he)

/-- Every answer of a history is the answer to a query with what is settled by then. -/
theorem Arises.exists_ask_of_mem {queries : List Query} (h : s.Arises memo)
    (hv : v ∈ s.answers queries memo) :
    ∃ (q : Query) (memo' : Memo), s.Arises memo' ∧ v = (q.ask s memo').1 := by
  induction queries generalizing memo with
  | nil => cases hv
  | cons q queries ih =>
    rcases List.mem_cons.mp hv with rfl | hv
    · exact ⟨q, memo, h, rfl⟩
    · exact ih (h.ask q) hv

/-- The answer to a query with a memo that arises is finite. -/
theorem Arises.isFinite_ask (h : s.Arises memo) (q : Query) : (q.ask s memo).1.IsFinite := by
  have hsubject : Finite q.subject := by cases q <;> exact trivial
  exact (h.backed.ask q).1.isFinite hsubject

/-- What is settled after a list of queries arises. -/
theorem Arises.memoAfter (h : s.Arises memo) (queries : List Query) :
    s.Arises (s.memoAfter queries memo) := by
  induction queries generalizing memo with
  | nil => exact h
  | cons q queries ih => exact ih (h.ask q)

end Sheet

namespace Evaluator

variable {s : Sheet} {remembered memo : Memo}

/-- What an evaluator remembers is finite, cells without a formula included, if what is settled
is. -/
theorem Holds.isFinite (h : Holds s remembered memo) (hmemo : memo.IsFinite) :
    remembered.IsFinite := by
  intro a v hv
  cases hf : s.isFormula a with
  | true => exact hmemo a v (h.formulas a hf ▸ hv)
  | false =>
    obtain ⟨text, _, rfl⟩ := h.others a v hf hv
    exact Content.isFinite_value _

/-- Queries are answered, and all that an evaluator remembers is finite, at the end and whenever it
set out to do something. -/
theorem exists_answers_isFinite (s : Sheet) (queries : List Query) :
    ∃ c, (answers s queries).run .start = some (s.answers queries ∅, c) ∧
      c.now.memo.IsFinite ∧ ∀ p ∈ c.past, p.2.memo.IsFinite := by
  obtain ⟨c, hrun, hidle, -⟩ := (Idle.start s).exists_answers queries
  obtain ⟨_, _, hfollows, -⟩ := hidle.tracks
  have harises : s.Arises (s.memoAfter queries ∅) := Sheet.Arises.empty.memoAfter queries
  have hfinite : c.now.memo.IsFinite := hfollows.holds.isFinite harises.backed.admitted.isFinite
  -- What is remembered keeps its value, so that nothing else was remembered before.
  exact ⟨c, hrun, hfinite, fun p hp a v hv => hfinite a v (hfollows.lawful.kept p hp a v hv)⟩

end Evaluator

namespace Sheet

/-- Whatever the history of queries, every answer is finite, and so is everything that is settled
and read, after a query as in the middle of one, and everything that an evaluator which works in
place remembers, blank cells and literals included; operators are applied to finite operands
only. -/
theorem evaluations_finite (s : Sheet) :
    (∀ queries, ∀ v ∈ s.answers queries ∅, v.IsFinite) ∧
    (∀ memo, s.Arises memo → memo.IsFinite ∧ ∀ q : Query, (q.ask s memo).1.IsFinite) ∧
    (∀ r, s.Resolves r → r.memo.IsFinite ∧ ∀ a, (r.read s a).IsFinite) ∧
    (∀ queries, ∃ c, (Evaluator.answers s queries).run .start = some (s.answers queries ∅, c) ∧
      c.now.memo.IsFinite ∧ ∀ p ∈ c.past, p.2.memo.IsFinite) ∧
    ∀ op a b, s.Applies op a b → a.IsFinite ∧ b.IsFinite := by
  refine ⟨fun queries v hv => ?_, fun memo hmemo => ?_, fun r hr => ?_,
    Evaluator.exists_answers_isFinite s, fun _ _ _ happlies => happlies.isFinite⟩
  · obtain ⟨q, memo, hmemo, rfl⟩ := Arises.empty.exists_ask_of_mem hv
    exact hmemo.isFinite_ask q
  · exact ⟨hmemo.backed.admitted.isFinite, hmemo.isFinite_ask⟩
  · obtain ⟨base, hsound, hadmitted⟩ := hr.sound
    exact ⟨hadmitted.isFinite, fun a => (admits_read hadmitted a).isFinite trivial⟩

/-- A cell that compares two numbers. -/
theorem evaluations_finite_comparison :
    let s := Sheet.ofList [(⟨0, 0⟩, "=(1<2)")]
    s.Applies (.comparison .less) (.number 1) (.number 2) ∧
      (Value.number 1).IsFinite ∧ (Value.number 2).IsFinite := by
  intro s
  have htext : s.text? ⟨0, 0⟩ = some "=(1<2)" := by decide
  have htree : Formula.tree? "=(1<2)" =
      some (.binary (.comparison .less) (.number 1) (.number 2)) := by decide +kernel
  have hreferences : s.references ⟨0, 0⟩ = [] := by decide +kernel
  have hstart : s.Resolves (Resolution.start s ∅ ⟨0, 0⟩) :=
    .start .empty Std.ExtTreeMap.not_mem_empty (by decide)
  have happlies : s.Applies (.comparison .less) (.number 1) (.number 2) :=
    .resolution hstart hreferences htext htree (.operator rfl rfl)
  exact ⟨happlies, (evaluations_finite s).2.2.2.2 _ _ _ happlies⟩

end Sheet

end Spreadsheet
