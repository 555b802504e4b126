import Spreadsheet.Proofs.Grid.Outcome
import Spreadsheet.Proofs.Sheet.Derivation

/-!
# A value in place of its formula

A formula whose evaluation reaches no circle is replaced by a literal that writes its value. The
edges that leave its cell are lost, but no circle leads through them, so the same cells are
circular. A grounded cell keeps its value, by induction along the edges: the cell itself has the
value it had, and any other formula reads values that are kept. So every cell is to show what it
was to show.
-/

namespace Spreadsheet.Sheet

open Relation

/-- The second sheet has a literal in a grounded cell, which writes the value that the cell has in
the first; the other cells have the same texts. -/
structure Pasted (s s' : Sheet) (a : Address) (x : Float) : Prop where
  /-- The texts of the other cells are the same. -/
  other : ∀ b, b ≠ a → s'.text? b = s.text? b
  /-- No circle can be reached from the cell. -/
  grounded : s.Grounded a
  /-- The cell has a number as its value. -/
  value : s.plainValue? a = some (.number x)
  /-- The cell has a text that is no formula and writes the number. -/
  text : ∃ text, s'.text? a = some text ∧ (Content.ofText text).number? = some x

namespace Pasted

variable {s s' : Sheet} {a b c : Address} {x : Float}

/-- The cell holds no formula any more. -/
theorem not_isFormula (h : Pasted s s' a x) : s'.isFormula a = false := by
  obtain ⟨text, ht, hx⟩ := h.text
  rw [isFormula_eq ht]
  by_contra hformula
  rw [Content.number?_of_isFormula (Bool.not_eq_false _ ▸ hformula)] at hx
  cases hx

/-- The same cells are there. -/
theorem isSome_text? (h : Pasted s s' a x) : (s'.text? b).isSome = (s.text? b).isSome := by
  by_cases hb : b = a
  · subst hb
    obtain ⟨text, ht, _⟩ := h.text
    cases hs : s.text? b with
    | some _ => rw [ht]; rfl
    | none =>
      have hvalue := h.value
      rw [plainValue?, valueBy_of_gone hs] at hvalue
      cases hvalue
  · rw [h.other b hb]

/-- The cell mentions nothing any more, and the others what they did. -/
theorem mentions_iff (h : Pasted s s' a x) : s'.Mentions b c ↔ b ≠ a ∧ s.Mentions b c := by
  constructor
  · intro hbc
    have hb : b ≠ a := by
      rintro rfl
      have hformula := hbc.isFormula
      rw [h.not_isFormula] at hformula
      cases hformula
    rw [Mentions, references, h.other b hb] at hbc
    exact ⟨hb, hbc⟩
  · rintro ⟨hb, hbc⟩
    rw [Mentions, references, h.other b hb]
    exact hbc

/-- Only the edges that leave the cell are lost. -/
theorem edge_iff (h : Pasted s s' a x) : s'.Edge b c ↔ b ≠ a ∧ s.Edge b c := by
  rw [Edge, Edge, h.mentions_iff, h.isSome_text?, and_assoc]

/-- A circular cell is not the one that was pasted over. -/
theorem ne_of_circular (h : Pasted s s' a x) (hb : s.Circular b) : b ≠ a := by
  rintro rfl
  exact h.grounded.not_circular hb

/-- A way to a circular cell leaves no grounded cell, so it is still there. -/
theorem edges_of_circular (h : Pasted s s' a x) (hbc : ReflTransGen s.Edge b c)
    (hc : s.Circular c) : ReflTransGen s'.Edge b c := by
  induction hbc using ReflTransGen.head_induction_on with
  | refl => exact .refl
  | head hbd hdc ih =>
    have hb := h.ne_of_circular (.of_edges (.head hbd hdc) hc)
    exact .head (h.edge_iff.mpr ⟨hb, hbd⟩) ih

/-- The same cells are circular. -/
theorem circular_iff (h : Pasted s s' a x) : s'.Circular b ↔ s.Circular b := by
  have hedges : ∀ b c, s'.Edge b c → s.Edge b c := fun b c hbc => (h.edge_iff.mp hbc).2
  constructor
  · rintro ⟨c, hbc, hcircle⟩
    exact ⟨c, ReflTransGen.mono hedges _ _ hbc, TransGen.mono hedges _ _ hcircle⟩
  · rintro ⟨c, hbc, hcircle⟩
    have hc : s.Circular c := ⟨c, .refl, hcircle⟩
    obtain ⟨d, hcd, hdc⟩ := TransGen.head'_iff.mp hcircle
    refine ⟨c, h.edges_of_circular hbc hc, TransGen.head' ?_ (h.edges_of_circular hdc hc)⟩
    exact h.edge_iff.mpr ⟨h.ne_of_circular hc, hcd⟩

/-- The cell keeps its value. -/
theorem plainValue?_eq_self (h : Pasted s s' a x) : s'.plainValue? a = s.plainValue? a := by
  obtain ⟨text, ht, hx⟩ := h.text
  have hformula := h.not_isFormula
  rw [isFormula_eq ht] at hformula
  rw [h.value, plainValue?, valueBy_of_not_formula ht hformula, Content.value, hx]

/-- Cells without a formula keep their value. -/
theorem plainValue?_eq_of_not_formula (h : Pasted s s' a x) (hb : s.isFormula b = false) :
    s'.plainValue? b = s.plainValue? b := by
  by_cases hba : b = a
  · rw [hba, h.plainValue?_eq_self]
  · have hvalue : s'.valueBy s'.plainValue? b = s.valueBy s'.plainValue? b := by
      rw [valueBy, valueBy, h.other b hba]
    rw [plainValue?, hvalue, valueBy_eq_of_not_formula hb _ s.plainValue?, ← plainValue?]

/-- A grounded cell keeps its value. -/
theorem plainValue?_eq (h : Pasted s s' a x) (hb : s.Grounded b) :
    s'.plainValue? b = s.plainValue? b := by
  induction hb with
  | intro b hb ih =>
    by_cases hba : b = a
    · rw [hba, h.plainValue?_eq_self]
    · cases hformula : s.isFormula b with
      | false => exact h.plainValue?_eq_of_not_formula hformula
      | true =>
        obtain ⟨text, ht, hft⟩ := isFormula_iff.mp hformula
        -- Both evaluations read the same values.
        have hread : ∀ c ∈ Formula.references text,
            s'.plainValue? c = s.plainValue? c ∧ s.plainValue? c = some (s.settledValue c) := by
          intro c hc
          by_cases hthere : (s.text? c).isSome = true
          · have hedge : s.Edge b c := ⟨by rwa [Mentions, references_eq ht], hthere⟩
            have hgrounded : s.Grounded c := hb c hedge
            exact ⟨ih c hedge, plainValue?_eq_settledValue hgrounded.plainValue?⟩
          · have hnot : s.isFormula c = false := by
              by_contra hc'
              exact hthere (isSome_of_isFormula (Bool.not_eq_false _ ▸ hc'))
            exact ⟨h.plainValue?_eq_of_not_formula hnot,
              plainValue?_eq_settledValue (plainValue?_of_not_formula hnot)⟩
        rw [plainValue?_of_formula ht hft, plainValue?_of_formula (h.other b hba ▸ ht) hft,
          evaluate_plainValue? fun c hc => (hread c hc).2,
          evaluate_plainValue? fun c hc => (hread c hc).1.trans (hread c hc).2]

/-- What a cell is to show for its text stays the same. -/
theorem outcome_eq (h : Pasted s s' a x) (b : Address) : s'.outcome b = s.outcome b := by
  funext text
  unfold outcome
  by_cases hcircular : s.Circular b
  · simp only [if_pos hcircular, if_pos (h.circular_iff.mpr hcircular)]
  · have hcircular' := mt h.circular_iff.mp hcircular
    have hgrounded := grounded_iff.mpr hcircular
    have hfresh : Query.fresh s' (.cell b) = Query.fresh s (.cell b) := by
      rw [Query.fresh_cell hgrounded.steady, Query.fresh_cell (grounded_iff.mpr hcircular').steady,
        settledValue, settledValue, h.plainValue?_eq hgrounded]
    simp only [if_neg hcircular, if_neg hcircular', hfresh]

end Pasted

end Spreadsheet.Sheet
