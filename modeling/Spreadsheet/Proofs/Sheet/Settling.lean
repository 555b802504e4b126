import Spreadsheet.Proofs.Sheet.Resolution

/-!
# Settled values

A cell is settled with its plain value, or as circular if it has none, unless the evaluation of
the cell reads a formula that leads back to it. Such a formula may be on the trail when the cell
is settled and is then read as circular, although plain recursion gives it a value. No cell that
a steady cell leads to reads back in this way; grounded cells are steady.
-/

namespace Spreadsheet

open Relation

namespace Sheet

/-- The plain value of a cell, or a circular reference if plain recursion does not end. -/
def settledValue (s : Sheet) (a : Address) : Value := (s.plainValue? a).getD (.error .circular)

/-- A cell has a plain value although its evaluation reads a formula that leads back to it. -/
structure ReadsBack (s : Sheet) (a b : Address) : Prop where
  /-- The cell has a plain value. -/
  plain : (s.plainValue? a).isSome
  /-- Its evaluation reads the other cell. -/
  reads : ∃ text, s.text? a = some text ∧ b ∈ Formula.reads s.plainValue? text
  /-- The other cell holds a formula. -/
  formula : s.isFormula b = true
  /-- The other cell leads to the first. -/
  back : ReflTransGen s.Edge b a

/-- No cell that a cell leads to reads back. -/
def Steady (s : Sheet) (a : Address) : Prop :=
  ∀ b, ReflTransGen s.Edge a b → ∀ c, ¬ s.ReadsBack b c

/-- A memo holds settled values only. -/
def Right (s : Sheet) (memo : Memo) : Prop :=
  ∀ (a : Address) (v : Value), memo[a]? = some v → v = s.settledValue a

/-- A memo that is covered and holds settled values. -/
structure Settled (s : Sheet) (memo : Memo) : Prop where
  /-- All formulas that a settled cell mentions are settled. -/
  covered : s.Covered memo
  /-- The values are the settled ones. -/
  right : s.Right memo

variable {s : Sheet} {a b : Address} {text : String}

/-- A plain value is the settled one. -/
theorem settledValue_of_plainValue? {v : Value} (h : s.plainValue? a = some v) :
    s.settledValue a = v := by
  rw [settledValue, h, Option.getD_some]

/-- A cell with a plain value has the settled one as its plain value. -/
theorem plainValue?_eq_settledValue (h : (s.plainValue? a).isSome) :
    s.plainValue? a = some (s.settledValue a) := by
  obtain ⟨v, hv⟩ := Option.isSome_iff_exists.mp h
  rw [settledValue_of_plainValue? hv, hv]

/-- A cell without a formula is settled with the value of its content. -/
theorem settledValue_of_not_formula (ht : s.text? a = some text)
    (hformula : (Content.ofText text).isFormula = false) :
    s.settledValue a = (Content.ofText text).value := by
  refine settledValue_of_plainValue? ?_
  rw [plainValue?, valueBy_of_not_formula ht hformula]

theorem settledValue_of_gone (h : s.text? a = none) : s.settledValue a = .error .missing := by
  refine settledValue_of_plainValue? ?_
  rw [plainValue?, valueBy_of_gone h]

/-- A cell that reads back has an edge to what it reads. -/
theorem ReadsBack.edge (h : s.ReadsBack a b) : s.Edge a b := by
  obtain ⟨text, ht, hb⟩ := h.reads
  refine ⟨?_, isSome_of_isFormula h.formula⟩
  rw [Mentions, references_eq ht]
  exact Formula.mem_references_of_mem_reads hb

/-- Reading back closes a circle. -/
theorem ReadsBack.circle (h : s.ReadsBack a b) : TransGen s.Edge a a :=
  TransGen.head' h.edge h.back

/-- Grounded cells are steady. -/
theorem Grounded.steady (h : s.Grounded a) : s.Steady a :=
  fun _ hb _ hback => (h.of_edges hb).not_circle hback.circle

theorem Settled.empty (s : Sheet) : s.Settled ∅ where
  covered a ha := absurd ha Std.ExtTreeMap.not_mem_empty
  right a v ha := by simp at ha

section Top

variable {base : Address} {r : Resolution} (h : Resolution.Sound s base r)
  (hleft : r.top.left = []) (hright : s.Right r.memo)
include h hleft hright

/-- What the innermost cell reads is circular or a plain value. -/
theorem read_top_circular_or_plain (ha : s.Mentions r.top.cell a) :
    r.read s a = .error .circular ∨ s.plainValue? a = some (r.read s a) := by
  rcases h.read_top hleft ha with ⟨_, hcircular⟩ | hmemo | ⟨_, hplain⟩
  · exact .inl hcircular
  · rw [hright a _ hmemo]
    cases hp : s.plainValue? a with
    | none => exact .inl (by rw [settledValue, hp, Option.getD_none])
    | some v => exact .inr (by rw [settledValue_of_plainValue? hp])
  · exact .inr hplain

/-- A cell that has a plain value and is not on the trail is read right. -/
theorem read_top_plain (ha : s.Mentions r.top.cell a) (hplain : (s.plainValue? a).isSome)
    (hoff : a ∉ r.resolving) : s.plainValue? a = some (r.read s a) := by
  rcases h.read_top hleft ha with ⟨hon, _⟩ | hmemo | ⟨_, hvalue⟩
  · exact absurd hon hoff
  · rw [hright a _ hmemo]
    exact plainValue?_eq_settledValue hplain
  · exact hvalue

/-- The innermost cell of a trail gets its settled value, if it does not read back. -/
theorem topValue_eq_settledValue (hback : ∀ a, ¬ s.ReadsBack r.top.cell a) :
    r.topValue s = s.settledValue r.top.cell := by
  obtain ⟨text, ht, hformula, hvalue⟩ := h.exists_topValue
  have hmentions : ∀ a ∈ Formula.references text, s.Mentions r.top.cell a := by
    intro a ha
    rwa [Mentions, references_eq ht]
  have hplain := plainValue?_of_formula ht hformula
  rw [hvalue]
  cases hp : s.plainValue? r.top.cell with
  | none =>
    -- A value that is not circular would have been found from plain values.
    rw [settledValue, hp, Option.getD_none]
    by_contra hne
    rw [hplain, Formula.evaluate_eq_of_ne_circular
      (fun a ha => read_top_circular_or_plain h hleft hright (hmentions a ha)) hne] at hp
    cases hp
  | some v =>
    rw [settledValue_of_plainValue? hp]
    have hsome : (s.plainValue? r.top.cell).isSome := by rw [hp]; rfl
    rw [hplain] at hp hsome
    have hread : ∀ a ∈ Formula.reads s.plainValue? text,
        s.plainValue? a = some (r.read s a) := by
      intro a ha
      refine read_top_plain h hleft hright (hmentions a (Formula.mem_references_of_mem_reads ha))
        (Formula.isSome_of_mem_reads hsome ha) fun hon => hback a ?_
      exact ⟨hplain ▸ hsome, ⟨text, ht, ha⟩, h.formulas a hon, h.trail.leads hon⟩
    rw [Formula.evaluate_eq_of_reads hread] at hp
    exact Option.some.inj hp

end Top

/-- The resolution of a steady cell gives it its settled value. -/
theorem run_settled {memo : Memo} (hmemo : s.Settled memo) (hnew : a ∉ memo)
    (ha : s.isFormula a = true) (hsteady : s.Steady a) :
    ((Resolution.start s memo a).run s).1 = s.settledValue a ∧
      s.Settled ((Resolution.start s memo a).run s).2 := by
  have hsettle : ∀ r, Resolution.Sound s a r → r.top.left = [] → s.Right r.memo →
      s.Right (r.memo.insert r.top.cell (r.topValue s)) := by
    intro r h hleft hright b v hb
    rw [Memo.getElem?_insert] at hb
    split at hb
    · rename_i heq
      rw [← Option.some.inj hb, ← heq]
      exact topValue_eq_settledValue h hleft hright (hsteady _ h.leads_top)
    · exact hright b v hb
  obtain ⟨hbase, hcovered, hright⟩ :=
    (Resolution.Sound.start hmemo.covered hnew ha).run hsettle hmemo.right
  exact ⟨hright a _ hbase, hcovered, hright⟩

/-- A settled value is looked up. -/
theorem cellValue_of_settled {memo : Memo} {v : Value} (h : memo[a]? = some v) :
    s.cellValue a memo = (v, memo) := by
  simp only [cellValue, h]

/-- A formula that is not settled is resolved. -/
theorem cellValue_of_formula {memo : Memo} (hnew : memo[a]? = none)
    (ha : s.isFormula a = true) : s.cellValue a memo = (Resolution.start s memo a).run s := by
  obtain ⟨text, ht, hformula⟩ := isFormula_iff.mp ha
  cases hc : Content.ofText text with
  | empty => simp [hc, Content.isFormula] at hformula
  | literal kept => simp [hc, Content.isFormula] at hformula
  | formula kept => simp only [cellValue, hnew, ht, hc]

/-- A cell without a formula is not remembered. -/
theorem cellValue_of_not_formula {memo : Memo} (hnew : memo[a]? = none)
    (ha : s.isFormula a = false) : s.cellValue a memo = (s.settledValue a, memo) := by
  cases ht : s.text? a with
  | none => simp only [cellValue, hnew, ht, settledValue_of_gone ht]
  | some text =>
    rw [isFormula_eq ht] at ha
    rw [settledValue_of_not_formula ht ha]
    cases hc : Content.ofText text with
    | empty => simp only [cellValue, hnew, ht, hc]
    | literal kept => simp only [cellValue, hnew, ht, hc]
    | formula kept => simp [hc, Content.isFormula] at ha

/-- The value of a steady cell as a formula sees it is its settled value. -/
theorem cellValue_settled {memo : Memo} (hmemo : s.Settled memo) (hsteady : s.Steady a) :
    (s.cellValue a memo).1 = s.settledValue a ∧ s.Settled (s.cellValue a memo).2 := by
  cases hm : memo[a]? with
  | some v =>
    rw [cellValue_of_settled hm]
    exact ⟨hmemo.right a v hm, hmemo⟩
  | none =>
    cases ha : s.isFormula a with
    | false =>
      rw [cellValue_of_not_formula hm ha]
      exact ⟨rfl, hmemo⟩
    | true =>
      rw [cellValue_of_formula hm ha]
      exact run_settled hmemo (by simp [Std.ExtTreeMap.mem_iff_isSome_getElem?, hm]) ha hsteady

/-- A formula that mentions steady cells only has its value under the settled values. -/
theorem evaluate_settled {memo : Memo} (hmemo : s.Settled memo)
    (hsteady : ∀ a ∈ Formula.references text, s.Steady a) :
    (s.evaluate text memo).1 = Formula.valueUnder s.settledValue text ∧
      s.Settled (s.evaluate text memo).2 := by
  have hcell : ∀ a ∈ Formula.references text, ∀ m, s.Settled m →
      (s.cellValue a m).1 = s.settledValue a ∧ s.Settled (s.cellValue a m).2 :=
    fun a ha _ hm => cellValue_settled hm (hsteady a ha)
  exact Formula.evaluate_run hcell hmemo

end Sheet

end Spreadsheet
