import Spreadsheet.Proofs.Sheet.Query

/-!
# Derivations of values

A derivation works a value out of the raw texts alone: a number is read from the text of a cell,
a formula gets the value of its tree, and a tree combines the values of its parts, none of which
may be an error. Derivations are finite, so nothing is derived for a cell whose formula leads back
to itself along the names in the trees.

Whatever the history of queries, every answer that is no error has a derivation. The memo may hold
errors that depend on the history; the invariant of a resolution speaks only of its other values.
-/

namespace Spreadsheet

open Relation

/-- A formula writes no number. -/
theorem Content.number?_of_isFormula {content : Content} (h : content.isFormula = true) :
    content.number? = none := by
  cases content with
  | empty => cases h
  | literal text => cases h
  | formula text => rfl

/-- What a value is derived for. -/
inductive Subject where
  /-- A cell as a formula sees it. -/
  | cell (a : Address)
  /-- A raw text as a formula. -/
  | formula (text : String)
  /-- The tree of a formula. -/
  | tree (e : Formula.Expr)

/-- The subject that a query asks for. -/
def Query.subject : Query → Subject
  | .formula text => .formula text
  | .cell a => .cell a

/-- The cells that the derivation of a value begins with: a cell itself, or the cells that a
formula or a tree names. -/
def Subject.Names : Subject → Address → Prop
  | .cell a, b => a = b
  | .formula text, b => ∃ e, Formula.tree? text = some e ∧
    ∃ name ∈ e.names, Address.parse? name = some b
  | .tree e, b => ∃ name ∈ e.names, Address.parse? name = some b

namespace Sheet

/-- The formula of a cell names a cell in its tree. -/
def Uses (s : Sheet) (a b : Address) : Prop :=
  ∃ text, s.text? a = some text ∧ (Subject.formula text).Names b

/-- A circle of names in trees can be reached from a cell. -/
def UsesCircle (s : Sheet) (a : Address) : Prop :=
  ∃ b, ReflTransGen s.Uses a b ∧ TransGen s.Uses b b

/-- The values that are derived from the raw texts of a sheet. -/
inductive Derives (s : Sheet) : Subject → Value → Prop where
  /-- A cell that holds no formula has the number that its text writes. -/
  | content {a : Address} {text : String} {x : Float} (ht : s.text? a = some text)
    (hx : (Content.ofText text).number? = some x) : s.Derives (.cell a) (.number x)
  /-- A cell has the value of its formula. -/
  | cell {a : Address} {text : String} {v : Value} (ht : s.text? a = some text)
    (hv : s.Derives (.formula text) v) : s.Derives (.cell a) v
  /-- A formula has the value of its tree. -/
  | formula {text : String} {e : Formula.Expr} {v : Value} (he : Formula.tree? text = some e)
    (hv : s.Derives (.tree e) v) : s.Derives (.formula text) v
  /-- A number has itself as its value. -/
  | number (x : Float) : s.Derives (.tree (.number x)) (.number x)
  /-- A name has the value of its cell. -/
  | name {name : String} {a : Address} {v : Value} (hp : Address.parse? name = some a)
    (hv : s.Derives (.cell a) v) : s.Derives (.tree (.cell name)) v
  /-- A function is applied to a number. -/
  | call (f : Formula.Unary) {e : Formula.Expr} {x : Float}
    (hx : s.Derives (.tree e) (.number x)) :
    s.Derives (.tree (.call f e)) (f.apply (.number x))
  /-- An operator is applied to the values of both operands, and its result is no error. -/
  | binary (op : Formula.Operator) {left right : Formula.Expr} {a b : Value}
    (hl : s.Derives (.tree left) a) (hr : s.Derives (.tree right) b)
    (hok : (op.apply a b).isOk = true) : s.Derives (.tree (.binary op left right)) (op.apply a b)

variable {s : Sheet} {a b : Address} {text : String} {v : Value} {subject : Subject}

/-- No error is derived. -/
theorem Derives.isOk (h : s.Derives subject v) : v.isOk = true := by
  induction h with
  | content ht hx => rfl
  | cell ht hv ih => exact ih
  | formula he hv ih => exact ih
  | number x => rfl
  | name hp hv ih => exact ih
  | call f hx ih => cases f <;> rfl
  | binary op hl hr hok ihl ihr => exact hok

/-- Only formulas that can be read have a value. -/
theorem Derives.isFormula (h : s.Derives (.formula text) v) :
    (Content.ofText text).isFormula = true := by
  cases h with
  | formula he _ => exact Formula.isFormula_of_tree? he

/-- At most one value is derived for a subject. -/
theorem Derives.unique {w : Value} (h : s.Derives subject v) (h' : s.Derives subject w) :
    v = w := by
  induction h generalizing w with
  | content ht hx =>
    cases h' with
    | content ht' hx' =>
      obtain rfl := Option.some.inj (ht.symm.trans ht')
      rw [Option.some.inj (hx.symm.trans hx')]
    | cell ht' hv' =>
      obtain rfl := Option.some.inj (ht.symm.trans ht')
      rw [Content.number?_of_isFormula hv'.isFormula] at hx
      cases hx
  | cell ht hv ih =>
    cases h' with
    | content ht' hx' =>
      obtain rfl := Option.some.inj (ht.symm.trans ht')
      rw [Content.number?_of_isFormula hv.isFormula] at hx'
      cases hx'
    | cell ht' hv' =>
      obtain rfl := Option.some.inj (ht.symm.trans ht')
      exact ih hv'
  | formula he hv ih =>
    cases h' with
    | formula he' hv' =>
      obtain rfl := Option.some.inj (he.symm.trans he')
      exact ih hv'
  | number x =>
    cases h'
    rfl
  | name hp hv ih =>
    cases h' with
    | name hp' hv' =>
      obtain rfl := Option.some.inj (hp.symm.trans hp')
      exact ih hv'
  | call f hx ih =>
    cases h' with
    | call _ hx' => rw [ih hx']
  | binary op hl hr hok ihl ihr =>
    cases h' with
    | binary _ hl' hr' _ => rw [ihl hl', ihr hr']

/-- Every name in a tree with a value is the name of a cell with a value. -/
theorem Derives.exists_of_mem_names {e : Formula.Expr} (h : s.Derives (.tree e) v) {name : String}
    (hname : name ∈ e.names) : ∃ b w, Address.parse? name = some b ∧ s.Derives (.cell b) w := by
  induction e generalizing v with
  | number x => cases hname
  | cell name' =>
    obtain rfl : name = name' := List.mem_singleton.mp hname
    cases h with
    | name hp hv => exact ⟨_, _, hp, hv⟩
  | call f e ih =>
    cases h with
    | call _ hx => exact ih hx hname
  | binary op left right ihl ihr =>
    cases h with
    | binary _ hl hr _ =>
      rcases List.mem_append.mp hname with hname | hname
      · exact ihl hl hname
      · exact ihr hr hname

/-- Every cell that a formula with a value names has a value. -/
theorem Derives.exists_of_names (h : s.Derives (.formula text) v)
    (ha : (Subject.formula text).Names a) : ∃ w, s.Derives (.cell a) w := by
  obtain ⟨e, he, name, hname, hp⟩ := ha
  cases h with
  | formula he' hv =>
    obtain rfl := Option.some.inj (he.symm.trans he')
    obtain ⟨b, w, hp', hw⟩ := hv.exists_of_mem_names hname
    obtain rfl := Option.some.inj (hp.symm.trans hp')
    exact ⟨w, hw⟩

/-- A formula with a value gives its cell that value. -/
theorem Derives.formula_of_cell (h : s.Derives (.cell a) v) (ht : s.text? a = some text)
    (hformula : (Content.ofText text).isFormula = true) : s.Derives (.formula text) v := by
  cases h with
  | content ht' hx =>
    obtain rfl := Option.some.inj (ht.symm.trans ht')
    rw [Content.number?_of_isFormula hformula] at hx
    cases hx
  | cell ht' hv =>
    obtain rfl := Option.some.inj (ht.symm.trans ht')
    exact hv

/-- The cells that a subject with a value leads to along names come to an end. -/
theorem Derives.acc (h : s.Derives subject v) :
    ∀ a, subject.Names a → Acc (fun b a => s.Uses a b) a := by
  induction h with
  | @content a text x ht hx =>
    rintro _ rfl
    refine Acc.intro a fun b hb => ?_
    obtain ⟨text', ht', e, he, _⟩ := hb
    obtain rfl : text = text' := Option.some.inj (ht.symm.trans ht')
    rw [Content.number?_of_isFormula (Formula.isFormula_of_tree? he)] at hx
    cases hx
  | @cell a text v ht hv ih =>
    rintro _ rfl
    refine Acc.intro a fun b hb => ?_
    obtain ⟨text', ht', hnames⟩ := hb
    obtain rfl : text = text' := Option.some.inj (ht.symm.trans ht')
    exact ih b hnames
  | formula he hv ih =>
    rintro b ⟨e', he', hnames⟩
    obtain rfl := Option.some.inj (he.symm.trans he')
    exact ih b hnames
  | number x =>
    rintro b ⟨name, hname, _⟩
    cases hname
  | name hp hv ih =>
    rintro b ⟨name', hname, hp'⟩
    obtain rfl := List.mem_singleton.mp hname
    exact ih b (Option.some.inj (hp.symm.trans hp'))
  | call f hx ih => exact ih
  | binary op hl hr hok ihl ihr =>
    rintro b ⟨name, hname, hp⟩
    rcases List.mem_append.mp hname with hname | hname
    · exact ihl b ⟨name, hname, hp⟩
    · exact ihr b ⟨name, hname, hp⟩

/-- Nothing is derived for a subject that leads to a circle of names. -/
theorem Derives.not_usesCircle (h : s.Derives subject v) (ha : subject.Names a) :
    ¬ s.UsesCircle a := by
  rintro ⟨b, hreach, hcircle⟩
  exact not_transGen_of_acc (acc_of_reflTransGen (h.acc a ha) hreach) hcircle

/-- A value is an error or is derived for a subject. -/
def Admits (s : Sheet) (subject : Subject) (v : Value) : Prop :=
  v.isOk = true → s.Derives subject v

theorem admits_error (s : Sheet) (subject : Subject) (code : ErrorCode) :
    s.Admits subject (.error code) := by
  intro hok
  simp [Value.isOk] at hok

/-- The value of a cell that holds no formula is read from its text. -/
theorem admits_content (ht : s.text? a = some text) :
    s.Admits (.cell a) (Content.ofText text).value := by
  intro hok
  unfold Content.value at hok ⊢
  split at hok
  · rename_i x hx
    exact .content ht hx
  · simp [Value.isOk] at hok

/-- An action that answers with errors and derived values only, and keeps a property of the
state, evaluates a tree to an error or a derived value and keeps the property. -/
theorem admits_evaluate_tree {σ : Type} {act : Address → StateM σ Value} {good : σ → Prop}
    (hact : ∀ a m, good m → s.Admits (.cell a) (act a m).1 ∧ good (act a m).2)
    (e : Formula.Expr) {m : σ} (hm : good m) :
    s.Admits (.tree e) (e.evaluate act m).1 ∧ good (e.evaluate act m).2 := by
  induction e generalizing m with
  | number x => exact ⟨fun _ => .number x, hm⟩
  | cell name =>
    cases hp : Address.parse? name with
    | none =>
      simp only [Formula.Expr.evaluate, hp]
      exact ⟨s.admits_error _ .missing, hm⟩
    | some a =>
      simp only [Formula.Expr.evaluate, hp]
      exact ⟨fun hok => .name hp ((hact a m hm).1 hok), (hact a m hm).2⟩
  | call f e ih =>
    obtain ⟨hvalue, hgood⟩ := ih hm
    refine ⟨fun hok => ?_, hgood⟩
    change (f.apply (e.evaluate act m).1).isOk = true at hok
    change s.Derives _ (f.apply (e.evaluate act m).1)
    obtain ⟨x, hx⟩ := Formula.Unary.exists_number_of_isOk hok
    rw [hx] at hvalue ⊢
    exact .call f (hvalue rfl)
  | binary op left right ihl ihr =>
    obtain ⟨hl, hgood⟩ := ihl hm
    obtain ⟨hr, hgood'⟩ := ihr hgood
    rw [Formula.Expr.evaluate_binary_run]
    split
    · refine ⟨fun hok => ?_, hgood'⟩
      obtain ⟨hokl, hokr, heq⟩ := Formula.Operator.isOk_of_combine_isOk hok
      rw [heq] at hok ⊢
      exact .binary op (hl hokl) (hr hokr) hok
    · rename_i hnot
      exact ⟨fun hok => absurd hok hnot, hgood⟩

/-- An action that gives cells admitted values gives a text one. -/
theorem admits_evaluate {σ : Type} {act : Address → StateM σ Value} {good : σ → Prop}
    (hact : ∀ a m, good m → s.Admits (.cell a) (act a m).1 ∧ good (act a m).2)
    (text : String) {m : σ} (hm : good m) :
    s.Admits (.formula text) (Formula.evaluate act text m).1 ∧
      good (Formula.evaluate act text m).2 := by
  unfold Formula.evaluate
  cases htree : Formula.tree? text with
  | none => exact ⟨s.admits_error _ .invalid, hm⟩
  | some e =>
    obtain ⟨hvalue, hgood⟩ := admits_evaluate_tree hact e hm
    exact ⟨fun hok => .formula htree (hvalue hok), hgood⟩

/-- Under admitted values of cells a text has an admitted value. -/
theorem admits_valueUnder {read : Address → Value} (hread : ∀ a, s.Admits (.cell a) (read a))
    (text : String) : s.Admits (.formula text) (Formula.valueUnder read text) := by
  -- An action that leaves a state of one element alone gives every cell its value.
  let act : Address → StateM Unit Value := fun a m => (read a, m)
  let good : Unit → Prop := fun _ => True
  have hvalue : ∀ a ∈ Formula.references text, ∀ m, good m →
      (act a m).1 = read a ∧ good (act a m).2 := fun _ _ _ _ => ⟨rfl, trivial⟩
  have hact : ∀ a m, good m → s.Admits (.cell a) (act a m).1 ∧ good (act a m).2 :=
    fun a _ _ => ⟨hread a, trivial⟩
  rw [← (Formula.evaluate_run (m := ()) hvalue trivial).1]
  exact (admits_evaluate hact text trivial).1

/-- Every value in a memo is an error or is derived. -/
def Admitted (s : Sheet) (memo : Memo) : Prop :=
  ∀ (a : Address) (v : Value), memo[a]? = some v → s.Admits (.cell a) v

/-- What a formula reads in a resolution is an error or is derived. -/
theorem admits_read {r : Resolution} (hmemo : s.Admitted r.memo) (a : Address) :
    s.Admits (.cell a) (r.read s a) := by
  unfold Resolution.read
  split
  · rename_i v hv
    exact hmemo a v hv
  · split
    · exact s.admits_error _ .circular
    · split
      · exact s.admits_error _ .missing
      · rename_i ht
        exact admits_content ht

/-- Settling the innermost cell of a resolution keeps the memo admitted. -/
theorem Admitted.settle {r : Resolution} (h : Resolution.Sound s a r) (hmemo : s.Admitted r.memo) :
    s.Admitted (r.memo.insert r.top.cell (r.topValue s)) := by
  intro b v hb
  rw [Memo.getElem?_insert] at hb
  split at hb
  · rename_i heq
    subst heq
    obtain ⟨text, ht, _, hvalue⟩ := h.exists_topValue
    obtain rfl := Option.some.inj hb
    intro hok
    rw [hvalue] at hok ⊢
    exact .cell ht (admits_valueUnder (admits_read hmemo) text hok)
  · exact hmemo b v hb

/-- A memo that is covered and admitted. -/
structure Backed (s : Sheet) (memo : Memo) : Prop where
  /-- All formulas that a settled cell mentions are settled. -/
  covered : s.Covered memo
  /-- Every value is an error or is derived. -/
  admitted : s.Admitted memo

theorem Backed.empty (s : Sheet) : s.Backed ∅ where
  covered a ha := absurd ha Std.ExtTreeMap.not_mem_empty
  admitted a v ha := by simp at ha

/-- A cell is answered with an error or a derived value. -/
theorem Backed.cellValue {memo : Memo} (hmemo : s.Backed memo) (a : Address) :
    s.Admits (.cell a) (s.cellValue a memo).1 ∧ s.Backed (s.cellValue a memo).2 := by
  cases hm : memo[a]? with
  | some v =>
    rw [cellValue_of_settled hm]
    exact ⟨hmemo.admitted a v hm, hmemo⟩
  | none =>
    cases ha : s.isFormula a with
    | false =>
      rw [cellValue_of_not_formula hm ha]
      refine ⟨?_, hmemo⟩
      cases ht : s.text? a with
      | none =>
        rw [settledValue_of_gone ht]
        exact s.admits_error _ .missing
      | some text =>
        rw [settledValue_of_not_formula ht (isFormula_eq ht ▸ ha)]
        exact admits_content ht
    | true =>
      rw [cellValue_of_formula hm ha]
      have hnew : a ∉ memo := by simp [Std.ExtTreeMap.mem_iff_isSome_getElem?, hm]
      obtain ⟨hbase, hcovered, hadmitted⟩ := (Resolution.Sound.start hmemo.covered hnew ha).run
        (fun _ h _ hr => hr.settle h) hmemo.admitted
      exact ⟨hadmitted a _ hbase, hcovered, hadmitted⟩

/-- A query is answered with an error or a derived value. -/
theorem Backed.ask {memo : Memo} (hmemo : s.Backed memo) (q : Query) :
    s.Admits q.subject (q.ask s memo).1 ∧ s.Backed (q.ask s memo).2 := by
  cases q with
  | formula text => exact admits_evaluate (fun a _ hm => hm.cellValue a) text hmemo
  | cell a => exact hmemo.cellValue a

/-- What was asked before can turn an answer into an error, but not into another value. -/
theorem Backed.ask_unique {memo memo' : Memo} (h : s.Backed memo) (h' : s.Backed memo')
    {q : Query} (hok : (q.ask s memo).1.isOk = true) (hok' : (q.ask s memo').1.isOk = true) :
    (q.ask s memo).1 = (q.ask s memo').1 :=
  ((h.ask q).1 hok).unique ((h'.ask q).1 hok')

/-- All answers of a history are admitted. -/
theorem Backed.answers {memo : Memo} (hmemo : s.Backed memo) (queries : List Query) :
    List.Forall₂ (fun q v => s.Admits q.subject v) queries (s.answers queries memo) := by
  induction queries generalizing memo with
  | nil => exact .nil
  | cons q queries ih =>
    obtain ⟨hvalue, hmemo'⟩ := hmemo.ask q
    exact .cons hvalue (ih hmemo')

/-- Whatever was asked before, an answer that is no error has a derivation, and a query that
leads to a circle of names is answered with an error. In a derivation every formula has a tree,
and every name in the tree is the name of a cell with a derived value that is no error. -/
theorem answers_derive (s : Sheet) (queries : List Query) :
    List.Forall₂ (fun q v => (v.isOk = true → s.Derives q.subject v) ∧
        ((∃ a, q.subject.Names a ∧ s.UsesCircle a) → ∃ code, v = .error code))
      queries (s.answers queries ∅) ∧
    ∀ text v, s.Derives (.formula text) v → ∃ e, Formula.tree? text = some e ∧
      ∀ name ∈ e.names, ∃ a w, Address.parse? name = some a ∧ s.Derives (.cell a) w ∧
        w.isOk = true := by
  constructor
  · refine ((Backed.empty s).answers queries).imp fun q v hv => ⟨hv, ?_⟩
    rintro ⟨a, hnames, hcircle⟩
    cases v with
    | error code => exact ⟨code, rfl⟩
    | number x => exact absurd hcircle ((hv rfl).not_usesCircle hnames)
    | boolean t => exact absurd hcircle ((hv rfl).not_usesCircle hnames)
  · intro text v hv
    cases hv with
    | @formula _ e _ he hv =>
      refine ⟨e, he, fun name hname => ?_⟩
      obtain ⟨b, w, hp, hw⟩ := hv.exists_of_mem_names hname
      exact ⟨b, w, hp, hw, hw.isOk⟩

/-- A cell that names a blank cell, and after it a cell that names itself. -/
theorem answers_derive_blank :
    let s := Sheet.ofList [(⟨0, 0⟩, "=(B1)"), (⟨0, 1⟩, ""), (⟨0, 2⟩, "=(C1)")]
    ∃ code, s.answers [.cell ⟨0, 0⟩, .cell ⟨0, 2⟩] ∅ = [.number 0, .error code] ∧
      s.Derives (.cell ⟨0, 0⟩) (.number 0) := by
  intro s
  have hfirst : Query.fresh s (.cell ⟨0, 0⟩) = .number 0 := by
    have hflat : ∀ a ∈ s.references ⟨0, 0⟩, s.isFormula a = false := by decide +kernel
    have hknown : s.tabulates [(⟨0, 0⟩, .number 0), (⟨0, 1⟩, .number 0)] = true := by
      decide +kernel
    exact Query.fresh_of_grounded (grounded_of_not_formulas hflat)
      (plainValue?_of_tabulates hknown List.mem_cons_self)
  have hcircle : s.UsesCircle ⟨0, 2⟩ := by
    have htree : Formula.tree? "=(C1)" = some (.cell "C1") := by decide +kernel
    have huses : s.Uses ⟨0, 2⟩ ⟨0, 2⟩ :=
      ⟨"=(C1)", by decide, _, htree, "C1", List.mem_singleton_self _, by decide⟩
    exact ⟨⟨0, 2⟩, .refl, .single huses⟩
  obtain ⟨hanswers, _⟩ := s.answers_derive [.cell ⟨0, 0⟩, .cell ⟨0, 2⟩]
  rw [answers, answers, answers] at hanswers ⊢
  obtain ⟨⟨hderives, _⟩, hanswers⟩ := List.forall₂_cons.mp hanswers
  obtain ⟨⟨_, herror⟩, _⟩ := List.forall₂_cons.mp hanswers
  obtain ⟨code, hcode⟩ := herror ⟨⟨0, 2⟩, rfl, hcircle⟩
  have hvalue : (Query.ask s (.cell ⟨0, 0⟩) ∅).1 = .number 0 := hfirst
  rw [hvalue] at hderives ⊢
  exact ⟨code, by rw [hcode], hderives rfl⟩

end Sheet

end Spreadsheet
