import Spreadsheet.Proofs.Formula.Read
import Spreadsheet.Proofs.Sheet.CircleSearch
import Spreadsheet.Sheet.Evaluator

/-!
# The plain value of a cell

The plain value of a cell is defined by plain recursion: a formula's tree is evaluated, and each
cell it names is worked out in the same way, with nothing remembered. The recursion need not end;
a cell on which it does not has no plain value. Grounded cells have one, no plain value is
circular, and it depends only on the texts of the cells that can be reached.

The definitions here say what a value is without the evaluator: they share with it what a number
is, how a formula is read, and the operators on values.
-/

namespace Spreadsheet

open Relation

/-- A cell without a formula is not circular. -/
theorem Content.value_ne_circular (content : Content) : content.value ≠ .error .circular := by
  unfold Content.value
  split <;> simp

namespace Formula

/-- The value of a tree whose cells have the values that `read` gives them. Operands are worked
out from left to right, and the first error is the value: nothing after it is asked for. A name
out of bounds is a missing cell. -/
def Expr.plainValue (read : Address → Option Value) : Expr → Option Value
  | .number x => some (.number x)
  | .cell name => match Address.parse? name with
    | some a => read a
    | none => some (.error .missing)
  | .call f argument => match argument.plainValue read with
    | none => none
    | some (.error code) => some (.error code)
    | some v => some (f.apply v)
  | .binary op left right => match left.plainValue read with
    | none => none
    | some (.error code) => some (.error code)
    | some v => match right.plainValue read with
      | none => none
      | some (.error code) => some (.error code)
      | some w => some (op.apply v w)

/-- The value of a raw text as a formula: text that fails the check of its shape or cannot be read
is an error, and other text has the value of its tree. -/
def plainValue (read : Address → Option Value) (text : String) : Option Value :=
  match text.toList with
  | '=' :: body =>
    match Shape.fault? text, parse body with
    | none, .ok e => e.plainValue read
    | _, _ => some (.error .invalid)
  | _ => some (.error .invalid)

/-- With values for some cells, the evaluation of a tree is plain recursion. -/
theorem Expr.plainValue_eq_evaluate (read : Address → Option Value) (e : Expr) :
    e.plainValue read = e.evaluate read := by
  induction e with
  | number x => rfl
  | cell name => rfl
  | call f e ih =>
    rw [evaluate_call, plainValue, ih]
    rcases e.evaluate read with _ | _ | _ | code
    · rfl
    · rfl
    · rfl
    · cases f <;> rfl
  | binary op left right ihl ihr =>
    rw [evaluate_binary, plainValue, ihl, ihr]
    rcases left.evaluate read with _ | _ | _ | _
    · rfl
    · rcases right.evaluate read with _ | _ | _ | _ <;> rfl
    · rcases right.evaluate read with _ | _ | _ | _ <;> rfl
    · rfl

/-- With values for some cells, the evaluation of a text is plain recursion. -/
theorem plainValue_eq_evaluate (read : Address → Option Value) (text : String) :
    plainValue read text = evaluate read text := by
  by_cases h : ∃ body, text.toList = '=' :: body
  · obtain ⟨body, htext⟩ := h
    simp only [plainValue, evaluate, tree?, htext]
    cases Shape.fault? text with
    | some fault => rfl
    | none =>
      cases parse body with
      | error fault => rfl
      | ok e => exact e.plainValue_eq_evaluate read
  · -- Text that does not begin as a formula has no tree.
    have hplain : plainValue read text = some (.error .invalid) := by
      unfold plainValue
      split
      · exact absurd ⟨_, ‹_›⟩ h
      · rfl
    have htree : tree? text = none := by
      unfold tree?
      split
      · exact absurd ⟨_, ‹_›⟩ h
      · rfl
    rw [hplain, evaluate, htree]
    rfl

end Formula

namespace Sheet

/-- The value of a cell: a cell that is not there is missing, a blank cell is zero, a literal has
the finite number it writes or is an error, and a formula has the value of its tree with the
values that `read` gives to other cells. -/
def valueBy (s : Sheet) (read : Address → Option Value) (a : Address) : Option Value :=
  match s.text? a with
  | none => some (.error .missing)
  | some text =>
    match Content.ofText text with
    | .empty => some (.number 0)
    | .literal text =>
      match Numeral.read? (Text.trim text.toList) with
      | some x => some (.number x)
      | none => some (.error .invalid)
    | .formula text => Formula.plainValue read text

theorem valueBy_of_gone {s : Sheet} {read : Address → Option Value} {a : Address}
    (h : s.text? a = none) : s.valueBy read a = some (.error .missing) := by
  simp only [valueBy, h]

/-- A formula is evaluated with the values that are given. -/
theorem valueBy_of_formula {s : Sheet} {read : Address → Option Value} {a : Address}
    {text : String} (h : s.text? a = some text) (hf : (Content.ofText text).isFormula = true) :
    s.valueBy read a = Formula.evaluate read text := by
  simp only [valueBy, h]
  cases hc : Content.ofText text with
  | empty => simp [hc, Content.isFormula] at hf
  | literal kept => simp [hc, Content.isFormula] at hf
  | formula kept =>
    obtain rfl : kept = text := Content.text?_ofText (by rw [hc]; rfl)
    exact Formula.plainValue_eq_evaluate read kept

/-- A cell without a formula has the value of its content. -/
theorem valueBy_of_not_formula {s : Sheet} {read : Address → Option Value} {a : Address}
    {text : String} (h : s.text? a = some text) (hf : (Content.ofText text).isFormula = false) :
    s.valueBy read a = some (Content.ofText text).value := by
  simp only [valueBy, h]
  cases hc : Content.ofText text with
  | empty => rfl
  | literal kept =>
    simp only [Content.value, Content.number?]
    cases Numeral.read? (Text.trim kept.toList) <;> rfl
  | formula kept => simp [hc, Content.isFormula] at hf

/-- A cell without a formula reads no other cell. -/
theorem valueBy_eq_of_not_formula {s : Sheet} {a : Address} (h : s.isFormula a = false)
    (f g : Address → Option Value) : s.valueBy f a = s.valueBy g a := by
  cases ht : s.text? a with
  | none => rw [valueBy_of_gone ht, valueBy_of_gone ht]
  | some text =>
    rw [isFormula_eq ht] at h
    rw [valueBy_of_not_formula ht h, valueBy_of_not_formula ht h]

/-- The more cells have values, the more cells are given one. -/
theorem valueBy_mono {s : Sheet} {f g : Address → Option Value}
    (h : ∀ a v, f a = some v → g a = some v) {a : Address} {v : Value}
    (ha : s.valueBy f a = some v) : s.valueBy g a = some v := by
  cases ht : s.text? a with
  | none => rwa [valueBy_of_gone ht] at ha ⊢
  | some text =>
    cases hf : (Content.ofText text).isFormula with
    | true =>
      rw [valueBy_of_formula ht hf] at ha ⊢
      exact Formula.evaluate_mono (fun b _ => h b) ha
    | false => rwa [valueBy_of_not_formula ht hf] at ha ⊢

/-- The value of a cell by plain recursion, if the recursion ends. -/
def plainValue? (s : Sheet) (a : Address) : Option Value :=
  s.valueBy (s |>.plainValue?) a
partial_fixpoint monotonicity by
  intro f g h a
  have hle : ∀ b v, f b = some v → g b = some v := by
    intro b v hv
    have hb := h b
    rw [hv] at hb
    generalize g b = w at hb
    cases hb
    rfl
  beta_reduce
  cases hf : s.valueBy f a with
  | none => exact .bot
  | some v =>
    rw [valueBy_mono hle hf]
    exact .refl

/-- The plain value of a formula's cell is the formula's value under the plain values. -/
theorem plainValue?_of_formula {s : Sheet} {a : Address} {text : String}
    (h : s.text? a = some text) (hf : (Content.ofText text).isFormula = true) :
    s.plainValue? a = Formula.evaluate s.plainValue? text := by
  rw [plainValue?, valueBy_of_formula h hf]

/-- Plain recursion never comes upon a circular reference. -/
theorem plainValue?_ne_circular (s : Sheet) (a : Address) :
    s.plainValue? a ≠ some (.error .circular) := by
  intro h
  refine plainValue?.partial_correctness s (fun _ v => v ≠ .error .circular) ?_ a _ h rfl
  intro read hread b v hb heq
  have hne : ∀ c, read c ≠ some (.error .circular) := fun c hc => hread c _ hc rfl
  subst heq
  cases ht : s.text? b with
  | none => simp [valueBy_of_gone ht] at hb
  | some text =>
    cases hf : (Content.ofText text).isFormula with
    | true =>
      rw [valueBy_of_formula ht hf] at hb
      exact Formula.evaluate_ne_circular hne text hb
    | false =>
      rw [valueBy_of_not_formula ht hf] at hb
      exact Content.value_ne_circular _ (Option.some.inj hb)

/-- A formula whose mentioned cells have plain values has one, whatever reads them. -/
theorem evaluate_plainValue? {s : Sheet} {text : String} {read : Address → Value}
    (h : ∀ a ∈ Formula.references text, s.plainValue? a = some (read a)) :
    Formula.evaluate s.plainValue? text = some (Formula.valueUnder read text) :=
  Formula.evaluate_eq_of_reads fun a ha => h a (Formula.mem_references_of_mem_reads ha)

/-- Cells that hold no formula have a plain value. -/
theorem plainValue?_of_not_formula {s : Sheet} {a : Address} (h : s.isFormula a = false) :
    (s.plainValue? a).isSome := by
  rw [plainValue?]
  cases ht : s.text? a with
  | none => simp [valueBy_of_gone ht]
  | some text =>
    rw [isFormula_eq ht] at h
    simp [valueBy_of_not_formula ht h]

/-- The recursion ends on a grounded cell. -/
theorem Grounded.plainValue? {s : Sheet} {a : Address} (h : s.Grounded a) :
    (s.plainValue? a).isSome := by
  induction h with
  | intro a _ ih =>
    cases hf : s.isFormula a with
    | false => exact plainValue?_of_not_formula hf
    | true =>
      obtain ⟨text, ht, hft⟩ := isFormula_iff.mp hf
      rw [plainValue?_of_formula ht hft]
      have hsome : ∀ b ∈ Formula.references text, (s.plainValue? b).isSome := by
        intro b hb
        by_cases hthere : (s.text? b).isSome = true
        · refine ih b ⟨?_, hthere⟩
          rwa [Mentions, references_eq ht]
        · refine plainValue?_of_not_formula ?_
          by_contra hformula
          exact hthere (isSome_of_isFormula (by simpa using hformula))
      have hplain : ∀ b ∈ Formula.references text,
          s.plainValue? b = some ((s.plainValue? b).getD (.error .invalid)) := by
        intro b hb
        obtain ⟨v, hv⟩ := Option.isSome_iff_exists.mp (hsome b hb)
        rw [hv, Option.getD_some]
      rw [evaluate_plainValue? hplain]
      rfl

private theorem AgreeFrom.plainValue?_of {s s' : Sheet} {a : Address} {v : Value}
    (hv : s.plainValue? a = some v) : AgreeFrom s s' a → s'.plainValue? a = some v := by
  refine plainValue?.partial_correctness s
    (fun a v => AgreeFrom s s' a → s'.plainValue? a = some v) ?_ a v hv
  intro read hread b w hb hagree
  have htext := hagree.text
  rw [plainValue?]
  cases ht : s.text? b with
  | none =>
    rw [valueBy_of_gone ht] at hb
    rw [valueBy_of_gone (htext ▸ ht), hb]
  | some text =>
    have ht' : s'.text? b = some text := htext ▸ ht
    cases hf : (Content.ofText text).isFormula with
    | false =>
      rw [valueBy_of_not_formula ht hf] at hb
      rw [valueBy_of_not_formula ht' hf, hb]
    | true =>
      rw [valueBy_of_formula ht hf] at hb
      rw [valueBy_of_formula ht' hf]
      refine Formula.evaluate_mono (fun c hc u hu => ?_) hb
      have hmentions : s.Mentions b c := by rwa [Mentions, references_eq ht]
      exact hread c u hu (hagree.of_mentions (.single hmentions))

/-- The plain value of a cell depends on the cells that can be reached from it. -/
theorem AgreeFrom.plainValue? {s s' : Sheet} {a : Address} (h : AgreeFrom s s' a) :
    s.plainValue? a = s'.plainValue? a := by
  ext v
  constructor
  · intro hv
    exact plainValue?_of hv h
  · intro hv
    exact plainValue?_of hv h.symm

/-- Whether a list of values can be worked out from its end: the value of each cell follows from
those that come after it. -/
def tabulates (s : Sheet) : List (Address × Value) → Bool
  | [] => true
  | (a, v) :: known => decide (s.valueBy (List.lookup · known) a = some v) && s.tabulates known

/-- What is looked up in a list is one of its entries. -/
theorem mem_of_lookup {known : List (Address × Value)} {a : Address} {v : Value}
    (h : List.lookup a known = some v) : (a, v) ∈ known := by
  obtain ⟨before, after, rfl, _⟩ := List.lookup_eq_some_iff.mp h
  exact List.mem_append_right before List.mem_cons_self

/-- The values that can be worked out in this way are plain values. -/
theorem plainValue?_of_tabulates {s : Sheet} {known : List (Address × Value)}
    (h : s.tabulates known = true) {a : Address} {v : Value} (ha : (a, v) ∈ known) :
    s.plainValue? a = some v := by
  induction known generalizing a v with
  | nil => cases ha
  | cons p known ih =>
    obtain ⟨b, w⟩ := p
    rw [tabulates, Bool.and_eq_true, decide_eq_true_eq] at h
    rcases List.mem_cons.mp ha with heq | ha
    · obtain ⟨rfl, rfl⟩ := Prod.mk.inj heq
      rw [plainValue?]
      exact valueBy_mono (fun c u hu => ih h.2 (mem_of_lookup hu)) h.1
    · exact ih h.2 ha

end Sheet

end Spreadsheet
