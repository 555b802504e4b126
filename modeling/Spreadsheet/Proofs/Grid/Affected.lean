import Spreadsheet.Proofs.Grid.Incremental

/-!
# What a change can affect

A change to some cells affects the formulas from which a chain of mentions leads to one of them.
The search for dependents finds these formulas and no others, whatever the order in which it
comes upon them, and an incremental recalculation changes what a cell shows only if the cell
changed itself or is one of them.
-/

namespace Spreadsheet

open Relation

/-- A sequence with a new start in front. -/
def prepend {α : Type} (a : α) (y : Nat → α) : Nat → α
  | 0 => a
  | i + 1 => y i

/-- A way of at least one step is a sequence of that many steps. -/
theorem transGen_iff_exists_seq {α : Type} {r : α → α → Prop} {a b : α} :
    TransGen r a b ↔
      ∃ (n : Nat) (y : Nat → α), 1 ≤ n ∧ y 0 = a ∧ y n = b ∧ ∀ i < n, r (y i) (y (i + 1)) := by
  constructor
  · intro h
    induction h using TransGen.head_induction_on with
    | @single a hlast =>
      refine ⟨1, prepend a fun _ => b, le_refl 1, rfl, rfl, fun i hi => ?_⟩
      obtain rfl : i = 0 := by omega
      exact hlast
    | @head a c hfirst _ ih =>
      obtain ⟨n, y, _, rfl, hend, hsteps⟩ := ih
      refine ⟨n + 1, prepend a y, by omega, rfl, hend, fun i hi => ?_⟩
      cases i with
      | zero => exact hfirst
      | succ i => exact hsteps i (by omega)
  · rintro ⟨n, y, hn, rfl, rfl, hsteps⟩
    induction n, hn using Nat.le_induction with
    | base => exact .single (hsteps 0 (by omega))
    | succ n _ ih => exact (ih fun i hi => hsteps i (by omega)).tail (hsteps n (by omega))

namespace Sheet

variable {s : Sheet} {changed : AddressSet} {a b : Address}

/-- A formula depends on some cells if a chain of formulas, each mentioning the next, leads from
it to one of them. -/
theorem mem_dependents_iff_exists_chain :
    a ∈ s.dependents changed ↔ ∃ (n : Nat) (y : Nat → Address), 1 ≤ n ∧ y 0 = a ∧
      y n ∈ changed ∧ ∀ i < n, s.isFormula (y i) = true ∧ y (i + 1) ∈ s.references (y i) := by
  rw [mem_dependents_iff]
  constructor
  · rintro ⟨b, hb, hab⟩
    obtain ⟨n, y, hn, hstart, rfl, hsteps⟩ := transGen_iff_exists_seq.mp hab
    exact ⟨n, y, hn, hstart, hb, fun i hi => ⟨(hsteps i hi).isFormula, hsteps i hi⟩⟩
  · rintro ⟨n, y, hn, hstart, hend, hsteps⟩
    refine ⟨y n, hend, transGen_iff_exists_seq.mpr ⟨n, y, hn, hstart, rfl, fun i hi => ?_⟩⟩
    exact (hsteps i hi).2

end Sheet

namespace Grid

variable {g : Grid} {changed : AddressSet} {a : Address}

/-- Cells that neither changed nor depend on a change keep what they show. -/
theorem cell?_recalculateChanged (hchanged : a ∉ changed)
    (hdependent : a ∉ g.sheet.dependents changed) :
    (g.recalculateChanged changed).cell? a = g.cell? a := by
  have ha : a ∉ (changed ∪ g.sheet.dependents changed).toList := by
    rw [Std.ExtTreeSet.mem_toList, Std.ExtTreeSet.mem_union_iff]
    exact not_or.mpr ⟨hchanged, hdependent⟩
  rw [recalculateChanged, cell?_recalculate]
  simp only [if_neg ha, Option.map_id']

/-- The dependents of some cells are the formulas from which a chain of formulas, each mentioning
the next, leads to one of these cells. The search finds them in whatever order it lists the
formulas and takes up the cells. An incremental recalculation changes what a cell shows only if
the cell is one of those given or of their dependents, and changes nothing else. -/
theorem recalculateChanged_affects_dependents (g : Grid) (changed : AddressSet) :
    (∀ a, a ∈ g.sheet.dependents changed ↔
      ∃ (n : Nat) (y : Nat → Address), 1 ≤ n ∧ y 0 = a ∧ y n ∈ changed ∧
        ∀ i < n, g.sheet.isFormula (y i) = true ∧ y (i + 1) ∈ g.sheet.references (y i)) ∧
    (∀ formulas queue, (∀ p, p ∈ formulas ↔ p ∈ g.sheet.formulas) →
      (∀ a, a ∈ queue ↔ a ∈ changed) →
        Sheet.searchDependents formulas ∅ ∅ queue = g.sheet.dependents changed) ∧
    (∀ a, (g.recalculateChanged changed).cell? a = g.cell? a ∨ a ∈ changed ∨
      a ∈ g.sheet.dependents changed) ∧
    (g.recalculateChanged changed).sheet = g.sheet ∧
    (g.recalculateChanged changed).rows = g.rows ∧
    (g.recalculateChanged changed).columns = g.columns ∧
    (g.recalculateChanged changed).pending = g.pending := by
  refine ⟨fun _ => Sheet.mem_dependents_iff_exists_chain,
    fun _ _ => Sheet.searchDependents_eq_dependents, fun a => ?_, g.sheet_recalculate _, rfl, rfl,
    rfl⟩
  by_cases ha : a ∈ changed ∨ a ∈ g.sheet.dependents changed
  · exact .inr ha
  · obtain ⟨hchanged, hdependent⟩ := not_or.mp ha
    exact .inl (cell?_recalculateChanged hchanged hdependent)

/-- Two formulas that mention each other, the first one also a cell with a number: the second
depends on that cell, and on itself. -/
theorem recalculateChanged_affects_dependents_ring :
    ∃ g, Grid.ofRows [["1", "=(A1+C1)", "=(B1)"]] = .ok g ∧
      ⟨0, 2⟩ ∈ g.sheet.dependents {⟨0, 0⟩} ∧ ⟨0, 2⟩ ∈ g.sheet.dependents {⟨0, 2⟩} ∧
      Sheet.searchDependents g.sheet.formulas.reverse ∅ ∅ [⟨0, 0⟩] =
        g.sheet.dependents {⟨0, 0⟩} := by
  obtain ⟨g, hg, hfirst, hsecond⟩ : ∃ g, Grid.ofRows [["1", "=(A1+C1)", "=(B1)"]] = .ok g ∧
      g.sheet.text? ⟨0, 1⟩ = some "=(A1+C1)" ∧ g.sheet.text? ⟨0, 2⟩ = some "=(B1)" :=
    ⟨_, rfl, by decide, by decide⟩
  have hformula : g.sheet.isFormula ⟨0, 1⟩ = true ∧ g.sheet.isFormula ⟨0, 2⟩ = true :=
    ⟨Sheet.isFormula_eq hfirst, Sheet.isFormula_eq hsecond⟩
  have hreferences : g.sheet.references ⟨0, 1⟩ = [⟨0, 0⟩, ⟨0, 2⟩] ∧
      g.sheet.references ⟨0, 2⟩ = [⟨0, 1⟩] := by
    rw [Sheet.references_eq hfirst, Sheet.references_eq hsecond]
    decide +kernel
  obtain ⟨hmem, horder, _⟩ := g.recalculateChanged_affects_dependents {⟨0, 0⟩}
  obtain ⟨hself, _⟩ := g.recalculateChanged_affects_dependents {⟨0, 2⟩}
  have hchain : ∀ target : Address, target ∈ g.sheet.references ⟨0, 1⟩ → ∀ i < 2,
      let y : Nat → Address := fun | 0 => ⟨0, 2⟩ | 1 => ⟨0, 1⟩ | _ => target
      g.sheet.isFormula (y i) = true ∧ y (i + 1) ∈ g.sheet.references (y i) := by
    intro target htarget i hi
    match i, hi with
    | 0, _ => exact ⟨hformula.2, by simp [hreferences.2]⟩
    | 1, _ => exact ⟨hformula.1, htarget⟩
  refine ⟨g, hg, (hmem _).mpr ⟨2, _, by decide, rfl, ?_, hchain ⟨0, 0⟩ (by simp [hreferences.1])⟩,
    (hself _).mpr ⟨2, _, by decide, rfl, ?_, hchain ⟨0, 2⟩ (by simp [hreferences.1])⟩,
    horder _ _ (fun _ => List.mem_reverse) fun _ => ?_⟩
  · exact mem_single_iff.mpr rfl
  · exact mem_single_iff.mpr rfl
  · rw [mem_single_iff, List.mem_singleton, eq_comm]

end Grid

end Spreadsheet
