import Mathlib.Logic.Relation
import Spreadsheet.Sheet.Reference

/-!
# The graph of references

A formula mentions cells; a mention of a cell that is there is an edge of the sheet's graph.
A cell is circular if a circle of edges can be reached from it, and grounded if every way along
the edges from it ends. Both depend only on the texts of the cells that can be reached.
-/

namespace Spreadsheet.Sheet

open Relation

section

variable {α : Type} {r : α → α → Prop} {a b : α}

/-- Where every way ends, it does so from each place on the way. -/
theorem acc_of_reflTransGen (ha : Acc (fun y x => r x y) a) (hab : ReflTransGen r a b) :
    Acc (fun y x => r x y) b := by
  induction hab with
  | refl => exact ha
  | tail _ hlast ih => exact ih.inv hlast

/-- Where every way ends, none leads back. -/
theorem not_transGen_of_acc (ha : Acc (fun y x => r x y) a) : ¬ TransGen r a a := by
  induction ha with
  | intro a _ ih =>
    intro hcircle
    obtain ⟨b, hab, hba⟩ := TransGen.head'_iff.mp hcircle
    exact ih b hab (TransGen.tail' hba hab)

end

/-- The text of a cell mentions a cell, whether that cell is there or not. -/
def Mentions (s : Sheet) (a b : Address) : Prop := b ∈ s.references a

/-- A mention of a cell that is there. -/
def Edge (s : Sheet) (a b : Address) : Prop := s.Mentions a b ∧ (s.text? b).isSome

/-- A circle of edges can be reached from a cell. -/
def Circular (s : Sheet) (a : Address) : Prop :=
  ∃ b, ReflTransGen s.Edge a b ∧ TransGen s.Edge b b

/-- Every way along the edges from a cell ends. -/
def Grounded (s : Sheet) (a : Address) : Prop := Acc (fun b a => s.Edge a b) a

theorem references_eq {s : Sheet} {a : Address} {text : String} (h : s.text? a = some text) :
    s.references a = Formula.references text := by
  simp only [references, h]

theorem isFormula_eq {s : Sheet} {a : Address} {text : String} (h : s.text? a = some text) :
    s.isFormula a = (Content.ofText text).isFormula := by
  simp only [isFormula, h]

/-- A cell holds a formula exactly if it is there with the text of one. -/
theorem isFormula_iff {s : Sheet} {a : Address} :
    s.isFormula a = true ↔ ∃ text, s.text? a = some text ∧ (Content.ofText text).isFormula := by
  cases h : s.text? a with
  | none => simp [isFormula, h]
  | some text => simp [isFormula, h]

/-- Only formulas mention cells. -/
theorem Mentions.isFormula {s : Sheet} {a b : Address} (h : s.Mentions a b) :
    s.isFormula a = true := by
  cases ht : s.text? a with
  | none => simp [Mentions, references, ht] at h
  | some text =>
    rw [Mentions, references_eq ht, Formula.references] at h
    rw [isFormula_eq ht]
    by_cases hf : (Content.ofText text).isFormula = true
    · exact hf
    · simp [hf] at h

theorem mentions_of_edges {s : Sheet} {a b : Address} (h : ReflTransGen s.Edge a b) :
    ReflTransGen s.Mentions a b :=
  ReflTransGen.mono (fun _ _ he => he.1) _ _ h

/-- A cell that leads to a circular one is circular. -/
theorem Circular.of_edges {s : Sheet} {a b : Address} (h : ReflTransGen s.Edge a b)
    (hb : s.Circular b) : s.Circular a := by
  obtain ⟨c, hc, hcircle⟩ := hb
  exact ⟨c, h.trans hc, hcircle⟩

/-- A cell that mentions grounded cells only is grounded. -/
theorem grounded_of_references {s : Sheet} {a : Address}
    (h : ∀ b ∈ s.references a, s.Grounded b) : s.Grounded a :=
  Acc.intro a fun b hb => h b hb.1

/-- Cells that hold no formula are grounded. -/
theorem grounded_of_not_formula {s : Sheet} {a : Address} (h : s.isFormula a = false) :
    s.Grounded a := by
  refine grounded_of_references fun b hb => ?_
  have ha := Mentions.isFormula hb
  simp [h] at ha

/-- A cell that mentions cells without formulas only is grounded. -/
theorem grounded_of_not_formulas {s : Sheet} {a : Address}
    (h : ∀ b ∈ s.references a, s.isFormula b = false) : s.Grounded a :=
  grounded_of_references fun b hb => grounded_of_not_formula (h b hb)

theorem Grounded.of_edges {s : Sheet} {a b : Address} (ha : s.Grounded a)
    (h : ReflTransGen s.Edge a b) : s.Grounded b :=
  acc_of_reflTransGen ha h

/-- A cell that leads back to itself is not grounded. -/
theorem Grounded.not_circle {s : Sheet} {a : Address} (ha : s.Grounded a) :
    ¬ TransGen s.Edge a a :=
  not_transGen_of_acc ha

/-- No circle can be reached from a grounded cell. -/
theorem Grounded.not_circular {s : Sheet} {a : Address} (ha : s.Grounded a) :
    ¬ s.Circular a := by
  rintro ⟨b, hab, hcircle⟩
  exact (ha.of_edges hab).not_circle hcircle

/-- Two sheets give the same text to every cell that can be reached from a cell in the first
sheet. -/
def AgreeFrom (s s' : Sheet) (a : Address) : Prop :=
  ∀ b, ReflTransGen s.Mentions a b → s.text? b = s'.text? b

theorem AgreeFrom.text {s s' : Sheet} {a : Address} (h : AgreeFrom s s' a) :
    s.text? a = s'.text? a := h a .refl

theorem AgreeFrom.references {s s' : Sheet} {a : Address} (h : AgreeFrom s s' a) :
    s.references a = s'.references a := by
  simp only [Sheet.references, h.text]

/-- Sheets that agree from a cell agree from what it leads to. -/
theorem AgreeFrom.of_mentions {s s' : Sheet} {a b : Address} (h : AgreeFrom s s' a)
    (hab : ReflTransGen s.Mentions a b) : AgreeFrom s s' b :=
  fun c hbc => h c (hab.trans hbc)

/-- The same cells can be reached in both sheets. -/
theorem AgreeFrom.mentions_iff {s s' : Sheet} {a b : Address} (h : AgreeFrom s s' a) :
    ReflTransGen s'.Mentions a b ↔ ReflTransGen s.Mentions a b := by
  constructor
  · intro hab
    induction hab with
    | refl => exact .refl
    | @tail c d _ hcd ih =>
      refine ih.tail ?_
      rwa [Mentions, (h.of_mentions ih).references]
  · intro hab
    induction hab with
    | refl => exact .refl
    | @tail c d hac hcd ih =>
      refine ih.tail ?_
      rwa [Mentions, ← (h.of_mentions hac).references]

/-- It does not matter in which sheet the reachable cells are found. -/
theorem AgreeFrom.symm {s s' : Sheet} {a : Address} (h : AgreeFrom s s' a) :
    AgreeFrom s' s a :=
  fun b hab => (h b (h.mentions_iff.mp hab)).symm

theorem AgreeFrom.edge {s s' : Sheet} {a b : Address} (h : AgreeFrom s s' a)
    (hab : s.Edge a b) : s'.Edge a b := by
  have hb := (h.of_mentions (.single hab.1)).text
  refine ⟨?_, hb ▸ hab.2⟩
  rw [Mentions, ← h.references]
  exact hab.1

/-- A way along edges from the cell is one in both sheets. -/
theorem AgreeFrom.edges {s s' : Sheet} {a b : Address} (h : AgreeFrom s s' a)
    (hab : ReflTransGen s.Edge a b) : ReflTransGen s'.Edge a b := by
  induction hab with
  | refl => exact .refl
  | @tail c d hac hcd ih => exact ih.tail ((h.of_mentions (mentions_of_edges hac)).edge hcd)

private theorem AgreeFrom.circular_of {s s' : Sheet} {a : Address} (h : AgreeFrom s s' a)
    (ha : s.Circular a) : s'.Circular a := by
  obtain ⟨b, hab, hcircle⟩ := ha
  have hb := h.of_mentions (mentions_of_edges hab)
  obtain ⟨c, hbc, hcb⟩ := TransGen.head'_iff.mp hcircle
  have hc := hb.of_mentions (.single hbc.1)
  exact ⟨b, h.edges hab, TransGen.head' (hb.edge hbc) (hc.edges hcb)⟩

/-- Whether a cell is circular depends on the cells that can be reached from it. -/
theorem AgreeFrom.circular_iff {s s' : Sheet} {a : Address} (h : AgreeFrom s s' a) :
    s.Circular a ↔ s'.Circular a :=
  ⟨h.circular_of, h.symm.circular_of⟩

end Spreadsheet.Sheet
