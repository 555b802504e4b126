import Spreadsheet.Proofs.Grid.Gate
import Spreadsheet.Proofs.Grid.Rectangle
import Spreadsheet.Proofs.Number.ReadBack
import Spreadsheet.Proofs.Sheet.Finiteness
import Spreadsheet.Proofs.Sheet.Pasting

/-!
# Pasting a value over its formula

The number that a formula's cell shows can be written over the formula: the text reads as the same
number, so after another full recalculation every cell shows what it showed before.
-/

namespace Spreadsheet

open Binary64

/-- What a cell shows. -/
def Cell.shown (cell : Cell) : Shown := ⟨cell.display, cell.message⟩

/-- Of the finite numbers only negative zero has a sign that is not displayed. -/
theorem isNegative_eq_false {x : Float} (hx : x.isFinite = true) (hzero : x ≠ -0.0)
    (hcode : code x = 0) : isNegative x = false := by
  have hnegative : (-0.0 : Float) = ofCode true 0 := by decide +kernel
  by_contra hsign
  rw [Bool.not_eq_false] at hsign
  refine hzero ?_
  rw [hnegative, ← ofCode_code hx, hsign, hcode]

namespace Sheet

variable {s : Sheet} {a : Address} {x : Float}

/-- A number that a cell has as its value is finite. -/
theorem isFinite_of_fresh (h : Query.fresh s (.cell a) = .number x) : x.isFinite = true :=
  (derives_fresh (by rw [h]; rfl)).isFinite trivial h

/-- A literal that displays the value of a grounded cell can take the place of its formula. -/
theorem pasted_display {s' : Sheet} (hgrounded : s.Grounded a)
    (hvalue : Query.fresh s (.cell a) = .number x) (hx : x ≠ -0.0)
    (hother : ∀ b, b ≠ a → s'.text? b = s.text? b)
    (htext : s'.text? a = some (String.ofList (Number.display x))) : Pasted s s' a x := by
  have hfinite := isFinite_of_fresh hvalue
  refine ⟨hother, hgrounded, ?_, _, htext,
    Content.number?_display hfinite (isNegative_eq_false hfinite hx)⟩
  rw [plainValue?_eq_settledValue hgrounded.plainValue?, ← Query.fresh_cell hgrounded.steady,
    hvalue]

end Sheet

namespace Grid

variable {g g' : Grid} {a b : Address} {x : Float} {text : String}

/-- Writing a text into a cell changes its text and no other. -/
theorem text?_setText (h : g.setText a text = .ok g') (b : Address) :
    g'.sheet.text? b = if b = a then some text else g.sheet.text? b := by
  obtain ⟨cell, hcell, rfl⟩ := setText_eq_ok_iff.mp h
  rw [text?_sheet, text?_sheet, cell?, Std.ExtTreeMap.getElem?_insert]
  simp only [Std.compare_eq_iff_eq, eq_comm (a := a)]
  split
  · rfl
  · rfl

/-- A full recalculation changes no text. -/
theorem sheet_recalculateAll (g : Grid) : g.recalculateAll.sheet = g.sheet :=
  g.sheet_recalculate g.addresses

/-- What the cells show after a full recalculation is a function of the texts. -/
theorem shown_recalculateAll (g : Grid) (b : Address) :
    (g.recalculateAll.cell? b).map Cell.shown = (g.sheet.text? b).map (g.sheet.outcome b) := by
  rw [cell?_recalculateAll, text?_sheet, Option.map_map, Option.map_map]
  rfl

/-- Grids show the same after a full recalculation if one has the number over the formula that the
other has. -/
theorem shown_recalculateAll_of_pasted (h : Sheet.Pasted g.sheet g'.sheet a x)
    (hshown : (g'.recalculateAll.cell? a).map Cell.shown =
      (g.recalculateAll.cell? a).map Cell.shown) (b : Address) :
    (g'.recalculateAll.cell? b).map Cell.shown = (g.recalculateAll.cell? b).map Cell.shown := by
  by_cases hb : b = a
  · rw [hb, hshown]
  · rw [shown_recalculateAll, shown_recalculateAll, h.other b hb, h.outcome_eq b]

/-- If the formula of a cell passes the check for circles and its value is a number other than
negative zero, then after a full recalculation the cell shows this number, and the text it shows
can be written into it: after another full recalculation every cell shows what it showed. -/
theorem recalculateAll_paste (g : Grid) (a : Address) (hformula : g.sheet.isFormula a = true)
    (hpass : g.sheet.hasCycle a = false) (hvalue : Query.fresh g.sheet (.cell a) = .number x)
    (hx : x ≠ -0.0) :
    ∃ cell g', g.recalculateAll.cell? a = some cell ∧ cell.shown = .ofValue (.number x) ∧
      g.recalculateAll.setText a cell.display = .ok g' ∧
      ∀ b, (g'.recalculateAll.cell? b).map Cell.shown =
        (g.recalculateAll.cell? b).map Cell.shown := by
  have hok : (Query.fresh g.sheet (.cell a)).isOk = true := by rw [hvalue]; rfl
  have hcircular : ¬ g.sheet.Circular a := by
    rw [← Sheet.hasCycle_iff, hpass]
    exact Bool.false_ne_true
  -- The cell shows the number.
  have hcell := cell?_recalculateAll_of_isOk hformula hok
  rw [if_neg hcircular, hvalue] at hcell
  obtain ⟨text, ht, _⟩ := Sheet.isFormula_iff.mp hformula
  rw [text?_sheet] at ht
  obtain ⟨cell, hold, _⟩ := Option.map_eq_some_iff.mp ht
  rw [hold, Option.map_some] at hcell
  -- The text it shows is written into it, and reads as the number.
  obtain ⟨g', hset⟩ : ∃ g', g.recalculateAll.setText a (String.ofList (Number.display x)) =
      .ok g' := ⟨_, setText_eq_ok_iff.mpr ⟨_, hcell, rfl⟩⟩
  have hpasted : Sheet.Pasted g.sheet g'.sheet a x := by
    refine Sheet.pasted_display (Sheet.grounded_iff.mpr hcircular) hvalue hx (fun b hb => ?_) ?_
    · rw [text?_setText hset, if_neg hb, sheet_recalculateAll]
    · rw [text?_setText hset, if_pos rfl]
  refine ⟨_, g', hcell, rfl, hset, shown_recalculateAll_of_pasted hpasted ?_⟩
  rw [shown_recalculateAll, text?_setText hset, if_pos rfl, hcell, Option.map_some, Option.map_some,
    Sheet.outcome, Content.ofText_display (Sheet.isFinite_of_fresh hvalue)]
  rfl

/-- A quarter, which one formula has as its value and another reads. -/
theorem recalculateAll_paste_quarter :
    ∃ g x, Grid.ofRows [["=(B1/4)", "1", "=(A1+B1)"]] = .ok g ∧ x ≠ -0.0 ∧
      ∃ cell g', g.recalculateAll.cell? ⟨0, 0⟩ = some cell ∧ cell.shown = .ofValue (.number x) ∧
        g.recalculateAll.setText ⟨0, 0⟩ cell.display = .ok g' ∧
        ∀ b, (g'.recalculateAll.cell? b).map Cell.shown =
          (g.recalculateAll.cell? b).map Cell.shown := by
  obtain ⟨g, hg, ht, hflat, hknown⟩ : ∃ g, Grid.ofRows [["=(B1/4)", "1", "=(A1+B1)"]] = .ok g ∧
      g.sheet.text? ⟨0, 0⟩ = some "=(B1/4)" ∧
      (∀ b ∈ g.sheet.references ⟨0, 0⟩, g.sheet.isFormula b = false) ∧
      g.sheet.tabulates [(⟨0, 0⟩, .number 0.25), (⟨0, 1⟩, .number 1)] = true :=
    ⟨_, rfl, by decide, by decide +kernel, by decide +kernel⟩
  have hgrounded : g.sheet.Grounded ⟨0, 0⟩ := Sheet.grounded_of_not_formulas hflat
  have hvalue : Query.fresh g.sheet (.cell ⟨0, 0⟩) = .number 0.25 :=
    Query.fresh_of_grounded hgrounded (Sheet.plainValue?_of_tabulates hknown List.mem_cons_self)
  have hx : (0.25 : Float) ≠ -0.0 := by decide +kernel
  refine ⟨g, 0.25, hg, hx, g.recalculateAll_paste ⟨0, 0⟩ ?_ ?_ hvalue hx⟩
  · rw [Sheet.isFormula_eq ht]
    decide
  · exact Bool.eq_false_iff.mpr (mt Sheet.hasCycle_iff.mp hgrounded.not_circular)

end Grid

end Spreadsheet
