import Spreadsheet.Proofs.Grid.Capacity

/-!
# Grids before a recalculation

Until a grid is recalculated no cell shows anything, so a cell is given by its text. Growing keeps
the cells that are there and adds blank ones, and writing a text replaces one cell. What is pending
makes no difference to a recalculation of everything.
-/

namespace Spreadsheet

namespace Grid

variable {g g' wide : Grid} {a b : Address} {text : String}

/-- No cell shows anything yet. -/
def Unshown (g : Grid) : Prop := ∀ a cell, g.cell? a = some cell → cell = .ofText cell.text

/-- A grid that is written into before anything is recalculated: a rectangle within its
capacity. -/
structure Draft (g : Grid) : Prop where
  /-- The grid is a rectangle. -/
  rectangular : g.Rectangular
  /-- The grid keeps to its capacity. -/
  le_capacity : g.rows * g.columns ≤ capacity
  /-- No cell shows anything. -/
  unshown : g.Unshown

/-- A grid of blank cells is a draft. -/
theorem draft_ofSize {rows columns : Nat} (h : ofSize rows columns = .ok g) : g.Draft := by
  obtain ⟨hrect, hrows, hcolumns⟩ := rectangular_ofSize h
  obtain ⟨hsize, hg⟩ := ofSize_eq_ok_iff.mp h
  refine ⟨hrect, by rwa [hrows, hcolumns], fun a cell hcell => ?_⟩
  rw [hg, cell?, getElem?_foldl_blank] at hcell
  split at hcell
  · rw [← Option.some.inj hcell]
    rfl
  · simp at hcell

/-- A grid grows to a cell of a rectangle around it that keeps to the capacity. -/
theorem exists_growToFit {rows columns : Nat} (hsize : rows * columns ≤ capacity)
    (hrows : g.rows ≤ rows) (hcolumns : g.columns ≤ columns) (hrow : a.row < rows)
    (hcolumn : a.column < columns) : ∃ wide, g.growToFit a = .ok wide := by
  refine ⟨_, growToFit_eq_ok_iff.mpr ⟨?_, rfl⟩⟩
  have hmaxRows : max g.rows (extentFor a.row) ≤ rows :=
    max_le hrows ((Nat.min_le_left _ _).trans hrow)
  have hmaxColumns : max g.columns (extentFor a.column) ≤ columns :=
    max_le hcolumns ((Nat.min_le_left _ _).trans hcolumn)
  exact (Nat.mul_le_mul hmaxRows hmaxColumns).trans hsize

/-- The cells of a grid that grew. -/
theorem Grown.cell?_getD (h : Grown g g') (hb : g'.contains b = true) :
    g'.cell? b = some ((g.cell? b).getD .blank) := by
  cases hold : g.contains b with
  | true =>
    obtain ⟨cell, hcell⟩ := Option.isSome_iff_exists.mp (contains_iff.mp hold)
    rw [h.kept b hold, hcell, Option.getD_some]
  | false =>
    have hnone : g.cell? b = none := by
      rw [← Option.not_isSome_iff_eq_none, ← contains_iff, hold]
      exact Bool.false_ne_true
    rw [h.added b hold hb, hnone, Option.getD_none]

/-- A grid that grows shows nothing if it did not before. -/
theorem Unshown.grown (h : g.Unshown) (hgrown : Grown g g') : g'.Unshown := by
  intro b cell hcell
  rw [hgrown.cell?_getD (contains_iff.mpr (by rw [hcell]; rfl))] at hcell
  obtain rfl := Option.some.inj hcell
  cases hold : g.cell? b with
  | none => rfl
  | some cell => exact h b cell hold

/-- Writing a text replaces one cell by another that shows nothing. -/
theorem Unshown.cell?_setText (h : g.Unshown) (hset : g.setText a text = .ok g')
    (b : Address) : g'.cell? b = if b = a then some (.ofText text) else g.cell? b := by
  obtain ⟨cell, hcell, rfl⟩ := setText_eq_ok_iff.mp hset
  rw [cell?, Std.ExtTreeMap.getElem?_insert, h a cell hcell]
  simp only [Std.compare_eq_iff_eq, eq_comm (a := a)]
  rfl

theorem Unshown.setText (h : g.Unshown) (hset : g.setText a text = .ok g') : g'.Unshown := by
  intro b cell hb
  rw [h.cell?_setText hset] at hb
  split at hb
  · rw [← Option.some.inj hb]
    rfl
  · exact h b cell hb

/-- What a text written into a cell does to a grid that is grown for it. -/
structure Written (g : Grid) (a : Address) (text : String) (g' : Grid) : Prop where
  /-- The rows reach the cell. -/
  rows : g'.rows = max g.rows (a.row + 1)
  /-- The columns reach the cell. -/
  columns : g'.columns = max g.columns (a.column + 1)
  /-- The cell has the text, and the other cells are as they were or blank. -/
  cell? : ∀ b, g'.contains b = true →
    g'.cell? b = some (if b = a then .ofText text else (g.cell? b).getD .blank)

/-- The cells after an assignment, with blank ones where there are none. -/
theorem Written.cell?_getD (h : g.Written a text g') (hg : g.Rectangular)
    (hg' : g'.Rectangular) (b : Address) :
    (g'.cell? b).getD .blank = if b = a then .ofText text else (g.cell? b).getD .blank := by
  have hrows := h.rows
  have hcolumns := h.columns
  by_cases hb : g'.contains b = true
  · rw [h.cell? b hb, Option.getD_some]
  · have hout : ¬(b.row < g'.rows ∧ b.column < g'.columns) := mt (hg' b).mpr hb
    have hne : b ≠ a := by
      rintro rfl
      omega
    have hnone : g.cell? b = none := by
      rw [← Option.not_isSome_iff_eq_none, ← contains_iff, hg b]
      omega
    rw [← Option.not_isSome_iff_eq_none.mp (mt contains_iff.mpr hb)] at hnone
    rw [if_neg hne, hnone]

/-- A draft that is grown and written into is one again. -/
theorem Draft.write (h : g.Draft) (hgrow : g.growToFit a = .ok wide)
    (hset : wide.setText a text = .ok g') : g'.Draft ∧ g.Written a text g' := by
  obtain ⟨hrect, hgrown, hrows, hcolumns⟩ := h.rectangular.growToFit hgrow
  have hunshown : wide.Unshown := h.unshown.grown hgrown
  have hsize : wide.rows * wide.columns ≤ capacity := growToFit_le hgrow
  obtain ⟨hrows', hcolumns'⟩ : g'.rows = wide.rows ∧ g'.columns = wide.columns := by
    obtain ⟨cell, _, rfl⟩ := setText_eq_ok_iff.mp hset
    exact ⟨rfl, rfl⟩
  have hrect' : g'.Rectangular := hrect.setText hset
  refine ⟨⟨hrect', by rwa [hrows', hcolumns'], hunshown.setText hset⟩, hrows'.trans hrows,
    hcolumns'.trans hcolumns, fun b hb => ?_⟩
  have hwide : wide.contains b = true := by
    rw [hrect b, ← hrows', ← hcolumns', ← hrect' b]
    exact hb
  rw [hunshown.cell?_setText hset]
  split
  · rfl
  · exact hgrown.cell?_getD hwide

/-- Grids with the same cells and extents are recalculated to the same grid, whatever is
pending. -/
theorem recalculateAll_congr (hcells : ∀ a, g.cell? a = g'.cell? a) (hrows : g.rows = g'.rows)
    (hcolumns : g.columns = g'.columns) : g.recalculateAll = g'.recalculateAll := by
  have hsheet : g.sheet = g'.sheet := Sheet.ext_text? fun a => by
    rw [text?_sheet, text?_sheet, hcells]
  refine ext_cell? (fun a => ?_) hrows hcolumns rfl
  rw [cell?_recalculateAll, cell?_recalculateAll, hcells, hsheet]

end Grid

end Spreadsheet
