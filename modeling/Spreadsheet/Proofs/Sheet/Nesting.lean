import Spreadsheet.Proofs.Sheet.Derivation

/-!
# Resolutions do not nest

An evaluator works in place: it keeps the values that it remembers and the cells that it resolves,
and while it evaluates a formula it may be called again for each cell that the formula names. The
calls are modelled as they are made, so that nothing but a proof says that they come to an end and
how deep they go. They follow the resolutions of a sheet step by step: a cell is evaluated when all
that its formula names is at hand, and the calls that this takes never resolve anything.
-/

namespace Spreadsheet

/-- What an evaluator has at hand. -/
structure Evaluator where
  /-- The values that are remembered, those of cells without a formula included. -/
  memo : Memo
  /-- The cells that are being resolved. -/
  resolving : AddressSet

namespace Evaluator

/-- What an evaluator sets out to do. -/
inductive Act where
  /-- Answer a query. -/
  | ask (q : Query)
  /-- Resolve a formula cell. -/
  | resolve (a : Address)
  /-- Put a formula cell on the stack. -/
  | push (a : Address)
  /-- Look at the stack once more. -/
  | round (stack : List Frame)
  /-- Evaluate the formula of a cell that was taken off the stack, and leave the rest there. -/
  | evaluate (a : Address) (rest : List Frame)
  /-- Remember the value of a cell. -/
  | remember (a : Address) (v : Value)

/-- An evaluator while it works, and what it did before. -/
structure Course where
  /-- What it has at hand now. -/
  now : Evaluator
  /-- What it set out to do, each with what it had at hand then. -/
  past : List (Act × Evaluator)

namespace Course

/-- The course of an evaluator that has not been asked yet. -/
def start : Course := ⟨⟨∅, ∅⟩, []⟩

instance : Nonempty Course := ⟨start⟩

/-- Record an act. -/
def note (c : Course) (act : Act) : Course := ⟨c.now, c.past ++ [(act, c.now)]⟩

/-- Put a cell on the stack. -/
def push (c : Course) (a : Address) : Course :=
  ⟨⟨c.now.memo, c.now.resolving.insert a⟩, (c.note (.push a)).past⟩

/-- Cease to resolve a cell. -/
def release (c : Course) (a : Address) : Course :=
  ⟨⟨c.now.memo, c.now.resolving.erase a⟩, c.past⟩

/-- Remember the value of a cell. -/
def remember (c : Course) (a : Address) (v : Value) : Course :=
  ⟨⟨c.now.memo.insert a v, c.now.resolving⟩, (c.note (.remember a v)).past⟩

end Course

/-- What an evaluator does in place. Work that does not come to an end has no result. -/
abbrev Work := StateT Course Option

/-- A call of an evaluator. -/
inductive Call where
  /-- For the value of a cell as a formula sees it. -/
  | cell (a : Address)
  /-- For the value of a formula cell that is not remembered. -/
  | resolve (a : Address)
  /-- For the rounds of a resolution from a stack on, with the value that was found last. -/
  | rounds (stack : List Frame) (value : Value)
  /-- For the value of a raw text as a formula. -/
  | formula (text : String)
  /-- For the value of a tree. -/
  | tree (e : Formula.Expr)

/-- What an evaluator does when it is called. It may call itself for any cell that a tree names. -/
def Call.perform (s : Sheet) (made : Call) : Work Value :=
  let call : Call → Work Value := fun next => next |>.perform s
  match made with
  | .cell a => do
    let e := (← get).now
    match e.memo[a]? with
    | some v => return v
    | none =>
      if a ∈ e.resolving then return .error .circular
      else match s.text? a with
        | none => return .error .missing
        | some text =>
          if (Content.ofText text).isFormula then call (.resolve a)
          else do
            modify (·.remember a (Content.ofText text).value)
            return (Content.ofText text).value
  | .resolve a => do
    modify (·.note (.resolve a))
    modify (·.push a)
    call (.rounds [⟨a, s.references a⟩] (.error .invalid))
  | .rounds stack value => do
    modify (·.note (.round stack))
    match stack with
    | [] => return value
    | ⟨a, b :: left⟩ :: rest => do
      let e := (← get).now
      if e.memo.contains b || e.resolving.contains b || !s.isFormula b then
        call (.rounds (⟨a, left⟩ :: rest) value)
      else do
        modify (·.push b)
        call (.rounds (⟨b, s.references b⟩ :: ⟨a, left⟩ :: rest) value)
    | ⟨a, []⟩ :: rest => do
      modify (·.note (.evaluate a rest))
      let value ← call (.formula ((s.text? a).getD ""))
      modify (·.release a)
      modify (·.remember a value)
      call (.rounds rest value)
  | .formula text =>
    match Formula.tree? text with
    | some e => call (.tree e)
    | none => return .error .invalid
  | .tree e =>
    match e with
    | .number x => return .number x
    | .cell name =>
      match Address.parse? name with
      | some a => call (.cell a)
      | none => return .error .missing
    | .call f argument => do return f.apply (← call (.tree argument))
    | .binary op left right => do
      let v ← call (.tree left)
      if v.isOk then do
        let w ← call (.tree right)
        if w.isOk then return op.apply v w else return w
      else return v
partial_fixpoint

/-- The call that a query makes. -/
def Call.ofQuery : Query → Call
  | .formula text => .formula text
  | .cell a => .cell a

/-- Answer queries, one after another. -/
def answers (s : Sheet) : List Query → Work (List Value)
  | [] => return []
  | q :: queries => do
    modify (·.note (.ask q))
    let v ← (Call.ofQuery q).perform s
    return v :: (← answers s queries)

/-- What holds when an evaluator sets out to do something. -/
def Act.Right (s : Sheet) (e : Evaluator) : Act → Prop
  -- Between queries nothing is being resolved.
  | .ask _ => ∀ b, b ∉ e.resolving
  -- No resolution has begun that has not ended.
  | .resolve a => s.isFormula a = true ∧ a ∉ e.memo ∧ ∀ b, b ∉ e.resolving
  | .push a => s.isFormula a = true ∧ a ∉ e.memo ∧ a ∉ e.resolving
  -- The cells that are being resolved are those on the stack.
  | .round stack => (stack.map Frame.cell).Nodup ∧
    ∀ b, b ∈ e.resolving ↔ b ∈ stack.map Frame.cell
  -- What the tree of the cell names is at hand, so that no call resolves it.
  | .evaluate a rest => (∀ b, b ∈ e.resolving ↔ b ∈ a :: rest.map Frame.cell) ∧
    ∀ b, s.Uses a b → b ∈ e.memo ∨ b ∈ e.resolving ∨ s.isFormula b = false
  | .remember a _ => a ∉ e.memo

/-- The cell that an act puts on the stack. -/
def Act.pushed? : Act → Option Address
  | .push a => some a
  | _ => none

/-- The cell whose formula an act evaluates. -/
def Act.evaluated? : Act → Option Address
  | .evaluate a _ => some a
  | _ => none

/-- The cells that were put on the stack, in order. -/
def Course.pushed (c : Course) : List Address := c.past.filterMap (·.1.pushed?)

/-- The cells whose formulas were evaluated, in order. -/
def Course.evaluated (c : Course) : List Address := c.past.filterMap (·.1.evaluated?)

variable {s : Sheet} {c c' : Course} {a base : Address} {v : Value} {text : String} {memo : Memo}
  {resolving : AddressSet} {act : Act} {pushed evaluated : List Address} {r r' : Resolution}
  {queries : List Query}

/-- What a call comes to: its value, and the course that the evaluator has taken. -/
def run (s : Sheet) (made : Call) (c : Course) : Option (Value × Course) := (made.perform s).run c

/-- What each call comes to, given what the calls come to that it makes. All that is proved of the
calls follows from these equations. -/
structure Equations (s : Sheet) (run : Call → Course → Option (Value × Course)) : Prop where
  /-- A cell is looked up, if it need not be resolved. -/
  cell (a : Address) (c : Course) : run (.cell a) c =
    match c.now.memo[a]? with
    | some v => some (v, c)
    | none =>
      if a ∈ c.now.resolving then some (.error .circular, c)
      else match s.text? a with
        | none => some (.error .missing, c)
        | some text =>
          if (Content.ofText text).isFormula then run (.resolve a) c
          else some ((Content.ofText text).value, c.remember a (Content.ofText text).value)
  /-- A resolution begins with its cell on the stack. -/
  resolve (a : Address) (c : Course) : run (.resolve a) c =
    run (.rounds [⟨a, s.references a⟩] (.error .invalid)) ((c.note (.resolve a)).push a)
  /-- It ends when the stack is empty. -/
  rounds_nil (value : Value) (c : Course) :
    run (.rounds [] value) c = some (value, c.note (.round []))
  /-- A reference of the innermost cell is passed over or put on the stack. -/
  rounds_cons (a b : Address) (left : List Address) (rest : List Frame) (value : Value)
    (c : Course) : run (.rounds (⟨a, b :: left⟩ :: rest) value) c =
    if c.now.memo.contains b || c.now.resolving.contains b || !s.isFormula b then
      run (.rounds (⟨a, left⟩ :: rest) value) (c.note (.round (⟨a, b :: left⟩ :: rest)))
    else
      run (.rounds (⟨b, s.references b⟩ :: ⟨a, left⟩ :: rest) value)
        ((c.note (.round (⟨a, b :: left⟩ :: rest))).push b)
  /-- The innermost cell is evaluated when it has no reference left. -/
  rounds_settle (a : Address) (rest : List Frame) (value : Value) (c : Course) :
    run (.rounds (⟨a, []⟩ :: rest) value) c =
      (run (.formula ((s.text? a).getD ""))
        ((c.note (.round (⟨a, []⟩ :: rest))).note (.evaluate a rest))).bind fun (v, c') =>
          run (.rounds rest v) ((c'.release a).remember a v)
  /-- A formula is read into a tree. -/
  formula (text : String) (c : Course) : run (.formula text) c =
    match Formula.tree? text with
    | some e => run (.tree e) c
    | none => some (.error .invalid, c)
  /-- A number is its own value. -/
  number (x : Float) (c : Course) : run (.tree (.number x)) c = some (.number x, c)
  /-- A name is a call for its cell. -/
  name (name : String) (c : Course) : run (.tree (.cell name)) c =
    match Address.parse? name with
    | some a => run (.cell a) c
    | none => some (.error .missing, c)
  /-- A function is applied to the value of its argument. -/
  call (f : Formula.Unary) (e : Formula.Expr) (c : Course) : run (.tree (.call f e)) c =
    (run (.tree e) c).map fun (v, c') => (f.apply v, c')
  /-- The right operand is called for if the left one is no error. -/
  binary (op : Formula.Operator) (left right : Formula.Expr) (c : Course) :
    run (.tree (.binary op left right)) c =
      (run (.tree left) c).bind fun (v, c') =>
        if v.isOk then
          (run (.tree right) c').map fun (w, c'') => (if w.isOk then op.apply v w else w, c'')
        else some (v, c')

/-- The evaluator solves the equations. -/
theorem equations (s : Sheet) : Equations s (run s) where
  cell a c := by
    rw [run, Call.perform]
    change StateT.run (match c.now.memo[a]? with | some v => _ | none => _) c = _
    cases hm : c.now.memo[a]? with
    | some v => rfl
    | none =>
      simp only
      split
      · rfl
      · cases s.text? a with
        | none => rfl
        | some text => exact apply_ite (StateT.run · c) _ _ _
  resolve a c := by
    rw [run, Call.perform]
    rfl
  rounds_nil value c := by
    rw [run, Call.perform]
    rfl
  rounds_cons a b left rest value c := by
    rw [run, Call.perform]
    exact apply_ite (StateT.run · (c.note (.round (⟨a, b :: left⟩ :: rest)))) _ _ _
  rounds_settle a rest value c := by
    rw [run, Call.perform]
    rfl
  formula text c := by
    rw [run, Call.perform]
    cases Formula.tree? text <;> rfl
  number x c := by
    rw [run, Call.perform]
    rfl
  name name c := by
    rw [run, Call.perform]
    cases Address.parse? name <;> rfl
  call f e c := by
    rw [run, Call.perform, StateT.run_bind, ← run]
    cases run s (.tree e) c <;> rfl
  binary op left right c := by
    rw [run, Call.perform, StateT.run_bind, ← run]
    cases run s (.tree left) c with
    | none => rfl
    | some p =>
      change StateT.run (if p.1.isOk then _ else _) p.2 = if p.1.isOk then _ else _
      cases p.1.isOk with
      | false => rfl
      | true =>
        rw [if_pos rfl, if_pos rfl, StateT.run_bind, ← run]
        cases run s (.tree right) p.2 with
        | none => rfl
        | some q =>
          change StateT.run (if q.1.isOk then _ else _) q.2 = some (if q.1.isOk then _ else _, q.2)
          cases q.1.isOk <;> rfl

/-- Where the left operand is no error, the right one decides whether the operator is applied. -/
theorem combine_of_isOk {op : Formula.Operator} {v w : Value} (h : v.isOk = true) :
    op.combine v w = if w.isOk then op.apply v w else w := by
  cases v <;> cases w <;> first | rfl | cases h

/-- Where the calls for cells do what an action does, a call for a tree does what the evaluation of
the tree by that action does. -/
theorem exists_run_tree {σ : Type} {f : Address → StateM σ Value} {R : Course → σ → Prop}
    {e : Formula.Expr} (hf : ∀ a, (Subject.tree e).Names a → ∀ c m, R c m →
      ∃ c', run s (.cell a) c = some ((f a m).1, c') ∧ R c' (f a m).2) {m : σ}
    (hm : R c m) :
    ∃ c', run s (.tree e) c = some ((e.evaluate f m).1, c') ∧
      R c' (e.evaluate f m).2 := by
  induction e generalizing c m with
  | number x => exact ⟨c, (equations s).number x c, hm⟩
  | cell name =>
    rw [(equations s).name]
    cases hp : Address.parse? name with
    | none =>
      rw [Formula.Expr.evaluate_cell_of_none hp]
      exact ⟨c, rfl, hm⟩
    | some a =>
      rw [Formula.Expr.evaluate_cell hp]
      exact hf a ⟨name, List.mem_singleton_self name, hp⟩ c m hm
  | call g e ih =>
    obtain ⟨c', hrun, hm'⟩ := ih hf hm
    refine ⟨c', ?_, hm'⟩
    rw [(equations s).call, hrun]
    rfl
  | binary op left right ihl ihr =>
    obtain ⟨c', hl, hm'⟩ := ihl
      (fun a ⟨name, hname, hp⟩ => hf a ⟨name, List.mem_append_left _ hname, hp⟩) hm
    obtain ⟨c'', hr, hm''⟩ := ihr
      (fun a ⟨name, hname, hp⟩ => hf a ⟨name, List.mem_append_right _ hname, hp⟩) hm'
    rw [(equations s).binary, hl, Formula.Expr.evaluate_binary_run, Option.bind_some]
    simp only
    split
    · rename_i hok
      rw [hr, combine_of_isOk hok]
      exact ⟨c'', rfl, hm''⟩
    · exact ⟨c', rfl, hm'⟩

/-- The same for a raw text. -/
theorem exists_run_formula {σ : Type} {f : Address → StateM σ Value}
    {R : Course → σ → Prop}
    (hf : ∀ a, (Subject.formula text).Names a → ∀ c m, R c m →
      ∃ c', run s (.cell a) c = some ((f a m).1, c') ∧ R c' (f a m).2) {m : σ}
    (hm : R c m) :
    ∃ c', run s (.formula text) c = some ((Formula.evaluate f text m).1, c') ∧
      R c' (Formula.evaluate f text m).2 := by
  rw [(equations s).formula]
  unfold Formula.evaluate
  cases htree : Formula.tree? text with
  | none => exact ⟨c, rfl, hm⟩
  | some e => exact exists_run_tree (fun a ha => hf a ⟨e, htree, ha⟩) hm

/-- The first query is answered, then the others from where it stopped. -/
theorem run_answers_cons (q : Query) (queries : List Query) (c : Course) :
    (answers s (q :: queries)).run c =
      (run s (.ofQuery q) (c.note (.ask q))).bind fun (v, c') =>
        ((answers s queries).run c').bind fun (values, c'') => some (v :: values, c'') := by
  rw [answers]
  rfl

@[simp] theorem Course.pushed_note (c : Course) (act : Act) :
    (c.note act).pushed = c.pushed ++ act.pushed?.toList := by
  rw [pushed, note, List.filterMap_append, ← pushed]
  cases act <;> rfl

@[simp] theorem Course.evaluated_note (c : Course) (act : Act) :
    (c.note act).evaluated = c.evaluated ++ act.evaluated?.toList := by
  rw [evaluated, note, List.filterMap_append, ← evaluated]
  cases act <;> rfl

theorem not_mem_of_getElem? (h : memo[a]? = none) : a ∉ memo := by
  simp [Std.ExtTreeMap.mem_iff_isSome_getElem?, h]

/-- What is remembered keeps its value. -/
def Kept (memo later : Memo) : Prop :=
  ∀ (a : Address) (v : Value), memo[a]? = some v → later[a]? = some v

/-- A new value does not replace one that is remembered. -/
theorem Kept.insert (hnew : memo[a]? = none) (v : Value) : Kept memo (memo.insert a v) := by
  intro b w hb
  have hne : a ≠ b := by
    rintro rfl
    cases hnew.symm.trans hb
  rw [Memo.getElem?_insert, if_neg hne, hb]

/-- All was right, and what was remembered is still remembered. -/
structure Lawful (s : Sheet) (c : Course) : Prop where
  /-- What an act needs held when it was set out on. -/
  right : ∀ p ∈ c.past, p.1.Right s p.2
  /-- The values of then are the values of now. -/
  kept : ∀ p ∈ c.past, Kept p.2.memo c.now.memo

namespace Lawful

/-- An act that is right may be recorded. -/
theorem note (h : Lawful s c) (hact : act.Right s c.now) : Lawful s (c.note act) where
  right p hp := by
    rcases List.mem_append.mp hp with hp | hp
    · exact h.right p hp
    · rw [List.mem_singleton.mp hp]
      exact hact
  kept p hp a v hv := by
    rcases List.mem_append.mp hp with hp | hp
    · exact h.kept p hp a v hv
    · rwa [List.mem_singleton.mp hp] at hv

/-- Nothing was less right for what is remembered since. -/
theorem of_past (h : Lawful s c) (hpast : c'.past = c.past) (hkept : Kept c.now.memo c'.now.memo) :
    Lawful s c' where
  right p hp := h.right p (hpast ▸ hp)
  kept p hp a v hv := hkept a v (h.kept p (hpast ▸ hp) a v hv)

end Lawful

/-- What an evaluator remembers, against what is settled in a resolution. -/
structure Holds (s : Sheet) (remembered memo : Memo) : Prop where
  /-- For formulas it is the same. -/
  formulas : ∀ a, s.isFormula a = true → remembered[a]? = memo[a]?
  /-- Other cells have the value that their text gives them. -/
  others : ∀ (a : Address) (v : Value), s.isFormula a = false → remembered[a]? = some v →
    ∃ text, s.text? a = some text ∧ v = (Content.ofText text).value
  /-- Only formulas are settled. -/
  settled : ∀ a, a ∈ memo → s.isFormula a = true

namespace Holds

variable {remembered : Memo}

/-- A formula is remembered exactly if it is settled. -/
theorem mem_iff (h : Holds s remembered memo) (ha : s.isFormula a = true) :
    a ∈ remembered ↔ a ∈ memo := by
  rw [Std.ExtTreeMap.mem_iff_isSome_getElem?, Std.ExtTreeMap.mem_iff_isSome_getElem?,
    h.formulas a ha]

/-- The value of a formula is remembered when the formula is settled. -/
theorem settle (h : Holds s remembered memo) (ha : s.isFormula a = true) (v : Value) :
    Holds s (remembered.insert a v) (memo.insert a v) where
  formulas b hb := by rw [Memo.getElem?_insert, Memo.getElem?_insert, h.formulas b hb]
  others b w hb hw := by
    have hne : a ≠ b := by
      rintro rfl
      cases ha.symm.trans hb
    rw [Memo.getElem?_insert, if_neg hne] at hw
    exact h.others b w hb hw
  settled b hb := by
    rcases Memo.mem_insert_iff.mp hb with rfl | hb
    · exact ha
    · exact h.settled b hb

/-- The value of a cell without a formula is remembered, and nothing is settled. -/
theorem look (h : Holds s remembered memo) (ht : s.text? a = some text)
    (ha : (Content.ofText text).isFormula = false) :
    Holds s (remembered.insert a (Content.ofText text).value) memo where
  formulas b hb := by
    have hne : a ≠ b := by
      rintro rfl
      rw [Sheet.isFormula_eq ht, ha] at hb
      cases hb
    rw [Memo.getElem?_insert, if_neg hne, h.formulas b hb]
  others b w hb hw := by
    rw [Memo.getElem?_insert] at hw
    split at hw
    · rename_i heq
      subst heq
      exact ⟨text, ht, (Option.some.inj hw).symm⟩
    · exact h.others b w hb hw
  settled := h.settled

end Holds

/-- An evaluator is as far as a resolution, and has put some cells on the stack and evaluated
some. -/
structure Follows (s : Sheet) (memo : Memo) (resolving : AddressSet)
    (pushed evaluated : List Address) (c : Course) : Prop where
  /-- All was right so far. -/
  lawful : Lawful s c
  /-- What is settled is remembered. -/
  holds : Holds s c.now.memo memo
  /-- The same cells are being resolved. -/
  resolving : c.now.resolving = resolving
  /-- The cells that were put on the stack. -/
  pushed : c.pushed = pushed
  /-- The cells that were evaluated. -/
  evaluated : c.evaluated = evaluated

namespace Follows

/-- Recording an act counts the cell that it puts on the stack or evaluates. -/
theorem note (h : Follows s memo resolving pushed evaluated c) (hact : act.Right s c.now) :
    Follows s memo resolving (pushed ++ act.pushed?.toList) (evaluated ++ act.evaluated?.toList)
      (c.note act) where
  lawful := h.lawful.note hact
  holds := h.holds
  resolving := h.resolving
  pushed := by rw [Course.pushed_note, h.pushed]
  evaluated := by rw [Course.evaluated_note, h.evaluated]

/-- A new cell is put on the stack. -/
theorem push (h : Follows s memo resolving pushed evaluated c) (ha : s.isFormula a = true)
    (hnew : a ∉ memo) (hoff : a ∉ resolving) :
    Follows s memo (resolving.insert a) (pushed ++ [a]) evaluated (c.push a) := by
  have hact : (Act.push a).Right s c.now :=
    ⟨ha, mt (h.holds.mem_iff ha).mp hnew, h.resolving ▸ hoff⟩
  have hnote := h.note hact
  simp only [Act.pushed?, Act.evaluated?, Option.toList_some, Option.toList_none,
    List.append_nil] at hnote
  exact ⟨hnote.lawful.of_past rfl fun _ _ => id, h.holds, congrArg (·.insert a) h.resolving,
    hnote.pushed, hnote.evaluated⟩

/-- A cell that was evaluated is not being resolved any more. -/
theorem release (h : Follows s memo resolving pushed evaluated c) (a : Address) :
    Follows s memo (resolving.erase a) pushed evaluated (c.release a) :=
  ⟨h.lawful.of_past rfl fun _ _ => id, h.holds, congrArg (·.erase a) h.resolving, h.pushed,
    h.evaluated⟩

/-- A value is remembered for a cell that has none. -/
theorem remember {memo' : Memo} (h : Follows s memo resolving pushed evaluated c)
    (hnew : c.now.memo[a]? = none) (hholds : Holds s (c.now.memo.insert a v) memo') :
    Follows s memo' resolving pushed evaluated (c.remember a v) := by
  have hact : (Act.remember a v).Right s c.now := not_mem_of_getElem? hnew
  have hnote := h.note hact
  simp only [Act.pushed?, Act.evaluated?, Option.toList_none, List.append_nil] at hnote
  exact ⟨hnote.lawful.of_past rfl (Kept.insert hnew v), hholds, h.resolving, hnote.pushed,
    hnote.evaluated⟩

/-- The value of a formula is remembered, and so the formula is settled. -/
theorem settle (h : Follows s memo resolving pushed evaluated c) (ha : s.isFormula a = true)
    (hnew : a ∉ memo) (v : Value) :
    Follows s (memo.insert a v) resolving pushed evaluated (c.remember a v) := by
  refine h.remember ?_ (h.holds.settle ha v)
  rw [h.holds.formulas a ha]
  exact Std.ExtTreeMap.getElem?_eq_none hnew

/-- A cell that is settled, is being resolved or holds no formula is read, and nothing is
resolved. -/
theorem exists_run_cell (h : Follows s r.memo r.resolving pushed evaluated c)
    (hformulas : ∀ b, b ∈ r.resolving → s.isFormula b = true)
    (ha : s.isFormula a = true → r.taken a = true) :
    ∃ c', run s (.cell a) c = some (r.read s a, c') ∧
      Follows s r.memo r.resolving pushed evaluated c' := by
  rw [(equations s).cell, h.resolving]
  unfold Resolution.read
  cases hf : s.isFormula a with
  | true =>
    rw [h.holds.formulas a hf]
    cases hm : r.memo[a]? with
    | some v => exact ⟨c, rfl, h⟩
    | none =>
      have hon : a ∈ r.resolving :=
        (Resolution.taken_iff.mp (ha hf)).resolve_left (not_mem_of_getElem? hm)
      simp only [if_pos hon]
      exact ⟨c, rfl, h⟩
  | false =>
    have hoff : a ∉ r.resolving := fun hon => by
      cases (hformulas a hon).symm.trans hf
    have hnew : r.memo[a]? = none := Std.ExtTreeMap.getElem?_eq_none fun hmem => by
      cases (h.holds.settled a hmem).symm.trans hf
    simp only [hnew, if_neg hoff]
    cases hm : c.now.memo[a]? with
    | some v =>
      obtain ⟨text, ht, rfl⟩ := h.holds.others a v hf hm
      simp only [ht]
      exact ⟨c, rfl, h⟩
    | none =>
      cases ht : s.text? a with
      | none => exact ⟨c, rfl, h⟩
      | some text =>
        rw [Sheet.isFormula_eq ht] at hf
        simp only [hf, Bool.false_eq_true, if_false]
        exact ⟨_, rfl, h.remember hm (h.holds.look ht hf)⟩

end Follows

/-- Each cell was put on the stack once at most, and evaluated once at most. -/
structure Once (memo : Memo) (resolving : AddressSet) (pushed evaluated : List Address) :
    Prop where
  /-- No cell was put on the stack twice. -/
  pushed_nodup : pushed.Nodup
  /-- The cells that were put on the stack are settled or still there. -/
  mem_pushed : ∀ a, a ∈ pushed ↔ a ∈ memo ∨ a ∈ resolving
  /-- No cell was evaluated twice. -/
  evaluated_nodup : evaluated.Nodup
  /-- The cells that were evaluated are settled. -/
  mem_evaluated : ∀ a, a ∈ evaluated ↔ a ∈ memo

namespace Once

/-- A cell that is put on the stack was not there before. -/
theorem push (h : Once memo resolving pushed evaluated) (hnew : a ∉ memo) (hoff : a ∉ resolving) :
    Once memo (resolving.insert a) (pushed ++ [a]) evaluated where
  pushed_nodup := by
    rw [← List.concat_eq_append]
    refine List.Nodup.concat ?_ h.pushed_nodup
    rw [h.mem_pushed]
    exact not_or.mpr ⟨hnew, hoff⟩
  mem_pushed b := by
    rw [List.mem_append, List.mem_singleton, h.mem_pushed, mem_insert_iff, @eq_comm _ a]
    tauto
  evaluated_nodup := h.evaluated_nodup
  mem_evaluated := h.mem_evaluated

/-- A cell that is evaluated was not evaluated before. -/
theorem settle (h : Once memo resolving pushed evaluated) (hnew : a ∉ memo) (hon : a ∈ resolving)
    (v : Value) : Once (memo.insert a v) (resolving.erase a) pushed (evaluated ++ [a]) where
  pushed_nodup := h.pushed_nodup
  mem_pushed b := by
    rw [h.mem_pushed, Memo.mem_insert_iff, mem_erase_iff]
    by_cases heq : a = b
    · subst heq
      simp [hon]
    · simp [heq]
  evaluated_nodup := by
    rw [← List.concat_eq_append]
    refine List.Nodup.concat ?_ h.evaluated_nodup
    rwa [h.mem_evaluated]
  mem_evaluated b := by
    rw [List.mem_append, List.mem_singleton, h.mem_evaluated, Memo.mem_insert_iff, or_comm,
      @eq_comm _ a]

end Once

/-- An evaluator is as far as a resolution, and has done nothing twice. -/
def Tracks (s : Sheet) (memo : Memo) (resolving : AddressSet) (c : Course) : Prop :=
  ∃ pushed evaluated, Follows s memo resolving pushed evaluated c ∧
    Once memo resolving pushed evaluated

/-- Recording an act that puts nothing on the stack and evaluates nothing. -/
theorem Tracks.note (h : Tracks s memo resolving c) (hact : act.Right s c.now)
    (hpushed : act.pushed? = none) (hevaluated : act.evaluated? = none) :
    Tracks s memo resolving (c.note act) := by
  obtain ⟨pushed, evaluated, hfollows, honce⟩ := h
  have hnote := hfollows.note hact
  rw [hpushed, hevaluated, Option.toList_none, List.append_nil, List.append_nil] at hnote
  exact ⟨pushed, evaluated, hnote, honce⟩

theorem Tracks.push (h : Tracks s memo resolving c) (ha : s.isFormula a = true) (hnew : a ∉ memo)
    (hoff : a ∉ resolving) : Tracks s memo (resolving.insert a) (c.push a) := by
  obtain ⟨pushed, evaluated, hfollows, honce⟩ := h
  exact ⟨_, _, hfollows.push ha hnew hoff, honce.push hnew hoff⟩

section Rounds

variable (h : Resolution.Sound s base r)
include h

/-- Looking at the stack of a resolution is right. -/
theorem Tracks.round (ht : Tracks s r.memo r.resolving c) :
    Tracks s r.memo r.resolving (c.note (.round (r.top :: r.outer))) := by
  refine ht.note ⟨h.trail.nodup, fun b => ?_⟩ rfl rfl
  obtain ⟨pushed, evaluated, hfollows, -⟩ := ht
  rw [hfollows.resolving]
  exact h.trail.mem_iff b

/-- What the tree of the innermost cell names is at hand when nothing is left to follow. -/
theorem taken_of_uses (hleft : r.top.left = []) (ha : s.Uses r.top.cell a)
    (hf : s.isFormula a = true) : r.taken a = true := by
  refine h.scanned_top hleft ?_ hf
  obtain ⟨text, ht, e, htree, name, hname, hp⟩ := ha
  rw [Sheet.Mentions, Sheet.references_eq ht]
  exact Formula.mem_references_of_tree? htree hname hp

/-- The innermost cell is evaluated when nothing is left to follow, with no resolution in between,
and it gets the value that it gets in the resolution. -/
theorem exists_run_settle (hleft : r.top.left = []) (ht : Tracks s r.memo r.resolving c)
    (value : Value) :
    ∃ c', run s (.rounds (r.top :: r.outer) value) c =
        run s (.rounds r.outer (r.topValue s)) c' ∧
      Tracks s (r.memo.insert r.top.cell (r.topValue s)) (r.resolving.erase r.top.cell) c' := by
  obtain ⟨pushed, evaluated, hfollows, honce⟩ := ht.round h
  obtain ⟨text, htext, -, hvalue⟩ := h.exists_topValue
  have hright : (Act.evaluate r.top.cell r.outer).Right s
      (c.note (.round (r.top :: r.outer))).now := by
    refine ⟨fun b => ?_, fun b hb => ?_⟩
    · rw [hfollows.resolving]
      exact h.trail.mem_iff b
    · cases hf : s.isFormula b with
      | false => exact .inr (.inr rfl)
      | true =>
        rw [hfollows.holds.mem_iff hf, hfollows.resolving]
        exact (Resolution.taken_iff.mp (taken_of_uses h hleft hb hf)).imp_right .inl
  have hstart := hfollows.note hright
  simp only [Act.pushed?, Act.evaluated?, Option.toList_some, Option.toList_none,
    List.append_nil] at hstart
  -- The calls for what the tree names read it as the resolution does.
  let f : Address → StateM Unit Value := fun a => pure (r.read s a)
  let R : Course → Unit → Prop := fun c _ =>
    Follows s r.memo r.resolving pushed (evaluated ++ [r.top.cell]) c
  have hread : ∀ a, (Subject.formula text).Names a → ∀ c m, R c m →
      ∃ c', run s (.cell a) c = some ((f a m).1, c') ∧ R c' (f a m).2 := by
    intro a ha c m hc
    exact hc.exists_run_cell h.formulas (taken_of_uses h hleft ⟨text, htext, ha⟩)
  obtain ⟨c', hrun, hc'⟩ := exists_run_formula (m := ()) hread hstart
  have hsame : (Formula.evaluate f text ()).1 = r.topValue s := by
    rw [hvalue]
    exact (@Formula.evaluate_run Unit f (r.read s) (fun _ => True) text
      (fun _ _ _ _ => ⟨rfl, trivial⟩) () trivial).1
  rw [hsame] at hrun
  refine ⟨(c'.release r.top.cell).remember r.top.cell (r.topValue s), ?_, pushed,
    evaluated ++ [r.top.cell], ?_, ?_⟩
  · have hstack : r.top :: r.outer = ⟨r.top.cell, []⟩ :: r.outer := by rw [← hleft]
    rw [hstack, (equations s).rounds_settle, ← hstack, htext, Option.getD_some, hrun,
      Option.bind_some]
  · exact (hc'.release _).settle (h.formulas _ h.top_mem) h.top_not_settled _
  · exact honce.settle h.top_not_settled h.top_mem _

/-- A step of a resolution that goes on is a round that goes on. -/
theorem exists_run_running (hstep : r.step s = .running r') (ht : Tracks s r.memo r.resolving c)
    (value : Value) :
    ∃ value' c', run s (.rounds (r.top :: r.outer) value) c =
        run s (.rounds (r'.top :: r'.outer) value') c' ∧
      Tracks s r'.memo r'.resolving c' := by
  have hround := ht.round h
  unfold Resolution.step at hstep
  split at hstep
  · rename_i a left hleft
    have hstack : r.top :: r.outer = ⟨r.top.cell, a :: left⟩ :: r.outer := by rw [← hleft]
    have htaken : (c.now.memo.contains a || c.now.resolving.contains a || !s.isFormula a) =
        (r.taken a || !s.isFormula a) := by
      obtain ⟨pushed, evaluated, hfollows, -⟩ := ht
      cases hf : s.isFormula a with
      | false => simp
      | true =>
        have hmem := hfollows.holds.mem_iff hf
        rw [Std.ExtTreeMap.mem_iff_contains, Std.ExtTreeMap.mem_iff_contains,
          ← Bool.eq_iff_iff] at hmem
        rw [hmem, hfollows.resolving, Resolution.taken]
    rw [hstack, (equations s).rounds_cons, ← hstack, htaken]
    split at hstep
    · rename_i hpass
      cases hstep
      rw [if_pos hpass]
      exact ⟨_, _, rfl, hround⟩
    · rename_i hfollow
      cases hstep
      rw [if_neg hfollow]
      obtain ⟨hnew, ha⟩ : r.taken a = false ∧ s.isFormula a = true := by simpa using hfollow
      have hoff : a ∉ r.memo ∧ a ∉ r.resolving :=
        not_or.mp fun hmem => by simp [Resolution.taken_iff.mpr hmem] at hnew
      exact ⟨_, _, rfl, hround.push ha hoff.1 hoff.2⟩
  · rename_i hleft
    split at hstep
    · cases hstep
    · rename_i top outer houter
      cases hstep
      obtain ⟨c', hrun, hc'⟩ := exists_run_settle h hleft ht value
      rw [hrun, houter]
      exact ⟨_, c', rfl, hc'⟩

/-- The rounds of a resolution come to an end, with the value that the resolution gives. -/
theorem exists_run_rounds (ht : Tracks s r.memo r.resolving c) (value : Value) :
    ∃ c', run s (.rounds (r.top :: r.outer) value) c = some ((r.run s).1, c') ∧
      Tracks s (r.run s).2 ∅ c' := by
  fun_induction Resolution.run s r generalizing c value with
  | case1 r value' memo hstep =>
    obtain ⟨hleft, htop, rfl, rfl⟩ := h.step_settled hstep
    have hlone := h.outer_eq_nil htop
    obtain ⟨c', hrun, hc'⟩ := exists_run_settle h hleft ht value
    have hempty : r.resolving.erase r.top.cell = ∅ := by
      refine Std.ExtTreeSet.eq_empty_iff_forall_not_mem.mpr fun a ha => ?_
      rw [h.trail.pop.mem_iff, hlone] at ha
      cases ha
    rw [hempty] at hc'
    rw [hrun, hlone, (equations s).rounds_nil]
    refine ⟨_, rfl, hc'.note ⟨List.nodup_nil, fun b => ?_⟩ rfl rfl⟩
    obtain ⟨pushed, evaluated, hfollows, -⟩ := hc'
    rw [hfollows.resolving]
    exact iff_of_false Std.ExtTreeSet.not_mem_empty List.not_mem_nil
  | case2 r r' hstep ih =>
    obtain ⟨value', c', hrun, hc'⟩ := exists_run_running h hstep ht value
    rw [hrun]
    exact ih (h.step_running hstep).1 hc' value'

end Rounds

/-- Between queries an evaluator is as far as a sheet that is asked the same, and all formulas that
a settled cell mentions are settled. -/
structure Idle (s : Sheet) (c : Course) (memo : Memo) : Prop where
  /-- Nothing is being resolved. -/
  tracks : Tracks s memo ∅ c
  /-- What is settled is covered. -/
  covered : s.Covered memo

/-- A cell that is not to be resolved has the value that is read. -/
theorem cellValue_eq_read (h : s.isFormula a = true → a ∈ memo) :
    s.cellValue a memo = (Resolution.read s ⟨memo, ∅, ⟨a, []⟩, []⟩ a, memo) := by
  unfold Resolution.read
  cases hm : memo[a]? with
  | some v => rw [Sheet.cellValue_of_settled hm]
  | none =>
    have hf : s.isFormula a = false :=
      Bool.eq_false_iff.mpr fun hf => not_mem_of_getElem? hm (h hf)
    rw [Sheet.cellValue_of_not_formula hm hf]
    simp only [if_neg Std.ExtTreeSet.not_mem_empty]
    cases ht : s.text? a with
    | none => rw [Sheet.settledValue_of_gone ht]
    | some text => rw [Sheet.settledValue_of_not_formula ht (Sheet.isFormula_eq ht ▸ hf)]

namespace Idle

theorem not_mem_resolving (h : Idle s c memo) (a : Address) : a ∉ c.now.resolving := by
  obtain ⟨pushed, evaluated, hfollows, -⟩ := h.tracks
  rw [hfollows.resolving]
  exact Std.ExtTreeSet.not_mem_empty

theorem start (s : Sheet) : Idle s .start ∅ where
  tracks := by
    refine ⟨[], [], ⟨⟨by simp [Course.start], by simp [Course.start]⟩, ⟨fun a _ => rfl, ?_, ?_⟩,
      rfl, rfl, rfl⟩, ⟨.nil, ?_, .nil, ?_⟩⟩
    · intro a v _ hv
      simp [Course.start] at hv
    · simp
    · simp
    · simp
  covered a ha := absurd ha Std.ExtTreeMap.not_mem_empty

/-- A formula cell that is not settled is resolved. -/
theorem exists_run_resolve (h : Idle s c memo) (hf : s.isFormula a = true) (hnew : a ∉ memo) :
    ∃ c', run s (.resolve a) c = some (((Resolution.start s memo a).run s).1, c') ∧
      Idle s c' ((Resolution.start s memo a).run s).2 := by
  have hsound := Resolution.Sound.start h.covered hnew hf
  have hright : (Act.resolve a).Right s c.now := by
    obtain ⟨pushed, evaluated, hfollows, -⟩ := h.tracks
    exact ⟨hf, mt (hfollows.holds.mem_iff hf).mp hnew, h.not_mem_resolving⟩
  have hstart := (h.tracks.note hright rfl rfl).push hf hnew Std.ExtTreeSet.not_mem_empty
  rw [(equations s).resolve]
  obtain ⟨c', hrun, hc'⟩ := exists_run_rounds hsound hstart (.error .invalid)
  exact ⟨c', hrun, hc', (@Resolution.Sound.run s a _ (fun _ => True) (fun _ _ _ _ => trivial)
    hsound trivial).2.1⟩

/-- A call for a cell gives the value that a formula sees. -/
theorem exists_run_cell (h : Idle s c memo) (a : Address) :
    ∃ c', run s (.cell a) c = some ((s.cellValue a memo).1, c') ∧
      Idle s c' (s.cellValue a memo).2 := by
  obtain ⟨pushed, evaluated, hfollows, honce⟩ := h.tracks
  by_cases hread : s.isFormula a = true → a ∈ memo
  · obtain ⟨c', hrun, hc'⟩ := Follows.exists_run_cell (r := ⟨memo, ∅, ⟨a, []⟩, []⟩) hfollows
      (fun b hb => absurd hb Std.ExtTreeSet.not_mem_empty)
      fun hf => Resolution.taken_iff.mpr (.inl (hread hf))
    rw [cellValue_eq_read hread]
    exact ⟨c', hrun, ⟨pushed, evaluated, hc', honce⟩, h.covered⟩
  · obtain ⟨hf, hnew⟩ := Classical.not_imp.mp hread
    obtain ⟨text, htext, hformula⟩ := Sheet.isFormula_iff.mp hf
    have hnone := Std.ExtTreeMap.getElem?_eq_none hnew
    rw [(equations s).cell, hfollows.holds.formulas a hf, hnone,
      Sheet.cellValue_of_formula hnone hf]
    simp only [if_neg (h.not_mem_resolving a), htext, hformula, if_true]
    exact h.exists_run_resolve hf hnew

/-- A formula cell is settled when it was called for, and what was settled before still is. -/
theorem settled_cellValue (h : Idle s c memo) (a : Address) :
    (∀ b, b ∈ memo → b ∈ (s.cellValue a memo).2) ∧
      (s.isFormula a = true → a ∈ (s.cellValue a memo).2) := by
  by_cases hread : s.isFormula a = true → a ∈ memo
  · rw [cellValue_eq_read hread]
    exact ⟨fun _ hb => hb, hread⟩
  · obtain ⟨hf, hnew⟩ := Classical.not_imp.mp hread
    have hsound := Resolution.Sound.start h.covered hnew hf
    rw [Sheet.cellValue_of_formula (Std.ExtTreeMap.getElem?_eq_none hnew) hf]
    obtain ⟨hbase, -, hkept⟩ := @Resolution.Sound.run s a _ (fun m => ∀ b, b ∈ memo → b ∈ m)
      (fun r _ _ hm b hb => Memo.mem_insert_iff.mpr (.inr (hm b hb))) hsound fun _ hb => hb
    exact ⟨hkept, fun _ => Memo.mem_of_getElem? hbase⟩

/-- A query is answered as the sheet answers it. -/
theorem exists_run_query (h : Idle s c memo) (q : Query) :
    ∃ c', run s (.ofQuery q) c = some ((q.ask s memo).1, c') ∧ Idle s c' (q.ask s memo).2 ∧
      ∀ b, b ∈ memo → b ∈ (q.ask s memo).2 := by
  cases q with
  | cell a =>
    obtain ⟨c', hrun, hc'⟩ := h.exists_run_cell a
    exact ⟨c', hrun, hc', (h.settled_cellValue a).1⟩
  | formula text =>
    let R : Course → Memo → Prop := fun c m => Idle s c m ∧ ∀ b, b ∈ memo → b ∈ m
    have hcell : ∀ a, (Subject.formula text).Names a → ∀ c m, R c m →
        ∃ c', run s (.cell a) c = some ((s.cellValue a m).1, c') ∧ R c' (s.cellValue a m).2 := by
      intro a _ c m hc
      obtain ⟨c', hrun, hc'⟩ := hc.1.exists_run_cell a
      exact ⟨c', hrun, hc', fun b hb => (hc.1.settled_cellValue a).1 b (hc.2 b hb)⟩
    exact exists_run_formula hcell ⟨h, fun _ hb => hb⟩

/-- Queries are answered as the sheet answers them, and the formula cells that are asked for are
settled then. -/
theorem exists_answers (h : Idle s c memo) (queries : List Query) :
    ∃ c', (answers s queries).run c = some (s.answers queries memo, c') ∧
      Idle s c' (s.memoAfter queries memo) ∧ (∀ b, b ∈ memo → b ∈ s.memoAfter queries memo) ∧
      ∀ a, .cell a ∈ queries → s.isFormula a = true → a ∈ s.memoAfter queries memo := by
  induction queries generalizing c memo with
  | nil => exact ⟨c, rfl, h, fun _ hb => hb, by simp⟩
  | cons q queries ih =>
    have hright : (Act.ask q).Right s c.now := h.not_mem_resolving
    have hask : Idle s (c.note (.ask q)) memo := ⟨h.tracks.note hright rfl rfl, h.covered⟩
    obtain ⟨c', hrun, hc', hkept⟩ := hask.exists_run_query q
    obtain ⟨c'', hruns, hc'', hkept', hasked⟩ := ih hc'
    refine ⟨c'', ?_, hc'', fun b hb => hkept' b (hkept b hb), fun a ha hf => ?_⟩
    · rw [run_answers_cons, hrun]
      simp only [Option.bind_some, hruns]
      rfl
    · rcases List.mem_cons.mp ha with rfl | ha
      · exact hkept' a ((h.settled_cellValue a).2 hf)
      · exact hasked a ha hf

end Idle

/-- However a fresh evaluator is queried, its calls come to an end and answer as the sheet does.
Nothing is being resolved when it is done, and whatever it set out to do was right: between queries
nothing was being resolved; a resolution began when no other was under way, although the evaluation
of a formula calls for every cell that it names; the cells that were being resolved were those on
the stack, and the one that was evaluated; and what the tree of that one names was remembered,
being resolved, or no formula. What was remembered kept its value. No formula cell was put on the
stack twice, none was evaluated twice, those that were put there are those that were evaluated, and
the ones that were asked for are among them. -/
theorem resolutions_do_not_nest (s : Sheet) (queries : List Query) :
    ∃ c, (answers s queries).run .start = some (s.answers queries ∅, c) ∧
      (∀ a, a ∉ c.now.resolving) ∧
      (∀ p ∈ c.past, p.1.Right s p.2 ∧ Kept p.2.memo c.now.memo) ∧
      c.pushed.Nodup ∧ c.evaluated.Nodup ∧ (∀ a, a ∈ c.pushed ↔ a ∈ c.evaluated) ∧
      ∀ a, .cell a ∈ queries → s.isFormula a = true → a ∈ c.evaluated := by
  obtain ⟨c, hrun, hidle, -, hasked⟩ := (Idle.start s).exists_answers queries
  obtain ⟨pushed, evaluated, hfollows, honce⟩ := hidle.tracks
  refine ⟨c, hrun, hidle.not_mem_resolving,
    fun p hp => ⟨hfollows.lawful.right p hp, hfollows.lawful.kept p hp⟩, ?_, ?_, fun a => ?_,
    fun a ha hf => ?_⟩
  · exact hfollows.pushed ▸ honce.pushed_nodup
  · exact hfollows.evaluated ▸ honce.evaluated_nodup
  · rw [hfollows.pushed, hfollows.evaluated, honce.mem_pushed, honce.mem_evaluated,
      or_iff_left Std.ExtTreeSet.not_mem_empty]
  · rw [hfollows.evaluated, honce.mem_evaluated]
    exact hasked a ha hf

end Evaluator

end Spreadsheet
