import Spreadsheet.Grid.Recalculation
import Spreadsheet.Proofs.Sheet.Query

/-!
# What a cell is to show

What a cell is to show is a function of the texts. The checks for the shape of a formula and for
circles come before its evaluation, so that only cells on which plain recursion ends are
evaluated, and the values settled for other cells before do not matter. What a cell is to show
depends only on the texts of the cells that can be reached from it.
-/

namespace Spreadsheet

/-- An error is shown as its tag and description, a value as its display. -/
theorem Shown.ofValue_eq (v : Value) : Shown.ofValue v = match v with
    | .error code => ⟨code.tag, some code.description⟩
    | value => ⟨value.display, none⟩ := by
  cases v <;> rfl

namespace Sheet

variable {s s' : Sheet} {a : Address}

/-- What a cell with a text is to show. A blank cell shows nothing and a literal its text. A formula
with a mistake in its shape shows that, one that leads to a circle the circle, and any other one
its value with nothing settled before: an error as its tag and description, a value as its
display. -/
def outcome (s : Sheet) (a : Address) (text : String) : Shown :=
  match Content.ofText text with
  | .empty => ⟨"", none⟩
  | .literal text => ⟨text, none⟩
  | .formula text =>
    match Formula.Shape.fault? text with
    | some fault => ⟨"#ERROR", some fault.message⟩
    | none =>
      if s.Circular a then ⟨"#CYCLE", some "circular reference"⟩
      else match Query.fresh s (.cell a) with
        | .error code => ⟨code.tag, some code.description⟩
        | value => ⟨value.display, none⟩

/-- With values settled before, a cell is shown what it is to show. -/
theorem shown?_settled {memo : Memo} (hmemo : s.Settled memo) (a : Address) :
    (s.shown? a memo).1 = (s.text? a).map (s.outcome a) ∧ s.Settled (s.shown? a memo).2 := by
  cases ht : s.text? a with
  | none =>
    simp only [shown?, ht]
    exact ⟨rfl, hmemo⟩
  | some text =>
    rw [Option.map_some]
    simp only [shown?, ht, outcome]
    cases Content.ofText text with
    | empty => exact ⟨rfl, hmemo⟩
    | literal kept => exact ⟨rfl, hmemo⟩
    | formula kept =>
      cases hfault : Formula.Shape.fault? kept with
      | some fault =>
        simp only [hfault]
        exact ⟨rfl, hmemo⟩
      | none =>
        simp only [hfault]
        by_cases hcircular : s.Circular a
        · simp only [if_pos (hasCycle_iff.mpr hcircular), if_pos hcircular]
          exact ⟨rfl, hmemo⟩
        · simp only [if_neg (mt hasCycle_iff.mp hcircular), if_neg hcircular]
          have hsteady := (grounded_iff.mpr hcircular).steady
          obtain ⟨hvalue, hmemo'⟩ := cellValue_settled hmemo hsteady
          refine ⟨?_, hmemo'⟩
          rw [Query.fresh_cell hsteady, ← hvalue, ← Shown.ofValue_eq]
          rfl

/-- Where no circle is in reach, a formula without a mistake in its shape shows its plain value. -/
theorem outcome_of_plainValue? {text : String} {v : Value}
    (hformula : Content.ofText text = .formula text) (hshape : Formula.Shape.fault? text = none)
    (hgrounded : s.Grounded a) (hv : s.plainValue? a = some v) :
    s.outcome a text = .ofValue v := by
  simp only [outcome, hformula, hshape, if_neg hgrounded.not_circular]
  rw [Query.fresh_of_grounded hgrounded hv, ← Shown.ofValue_eq]

/-- A formula without a mistake in its shape shows the circle that it leads to. -/
theorem outcome_of_circular {text : String} (hformula : Content.ofText text = .formula text)
    (hshape : Formula.Shape.fault? text = none) (hcircular : s.Circular a) :
    s.outcome a text = ⟨"#CYCLE", some "circular reference"⟩ := by
  simp only [outcome, hformula, hshape, if_pos hcircular]

/-- A formula shows the mistake in its shape. -/
theorem outcome_of_fault {text : String} {fault : Formula.ShapeFault}
    (hformula : Content.ofText text = .formula text)
    (hshape : Formula.Shape.fault? text = some fault) :
    s.outcome a text = ⟨"#ERROR", some fault.message⟩ := by
  simp only [outcome, hformula, hshape]

/-- What a cell is to show depends on the cells that can be reached from it. -/
theorem AgreeFrom.outcome (h : AgreeFrom s s' a) : s.outcome a = s'.outcome a := by
  have hfresh : ¬ s.Circular a → Query.fresh s (.cell a) = Query.fresh s' (.cell a) := by
    intro hcircular
    have hsteady := (grounded_iff.mpr hcircular).steady
    have hsteady' := (grounded_iff.mpr (mt h.circular_iff.mpr hcircular)).steady
    rw [Query.fresh_cell hsteady, Query.fresh_cell hsteady', settledValue, settledValue,
      h.plainValue?]
  funext text
  unfold Sheet.outcome
  by_cases hcircular : s.Circular a
  · simp only [if_pos hcircular, if_pos (h.circular_iff.mp hcircular)]
  · simp only [if_neg hcircular, if_neg (mt h.circular_iff.mpr hcircular), hfresh hcircular]

end Sheet

end Spreadsheet
