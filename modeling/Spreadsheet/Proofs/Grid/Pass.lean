import Spreadsheet.Proofs.Grid.Outcome

/-!
# Recalculation passes

A pass gives each of its targets what it is to show and changes nothing else. The values that
are settled on the way belong to grounded cells, so the order of the targets does not matter.
-/

namespace Spreadsheet

/-- The cell with something else to show. -/
def Cell.showing (cell : Cell) (shown : Shown) : Cell :=
  { cell with display := shown.display, message := shown.message }

@[simp]
theorem Cell.text_showing (cell : Cell) (shown : Shown) : (cell.showing shown).text = cell.text :=
  rfl

@[simp]
theorem Cell.showing_showing (cell : Cell) (shown shown' : Shown) :
    (cell.showing shown).showing shown' = cell.showing shown' :=
  rfl

/-- Sheets are equal if they hold the same texts. -/
theorem Sheet.ext_text? {s s' : Sheet} (h : ∀ a, s.text? a = s'.text? a) : s = s' := by
  have htexts : s.texts = s'.texts := Std.ExtTreeMap.ext_getElem? h
  cases s
  cases s'
  simp_all

namespace Grid

variable {g g' : Grid} {s : Sheet} {a : Address} {cell : Cell} {targets : List Address}

/-- Grids are equal if their cells, extents and pending cells are. -/
theorem ext_cell? (hcells : ∀ a, g.cell? a = g'.cell? a) (hrows : g.rows = g'.rows)
    (hcolumns : g.columns = g'.columns) (hpending : g.pending = g'.pending) : g = g' := by
  have h : g.cells = g'.cells := Std.ExtTreeMap.ext_getElem? hcells
  cases g
  cases g'
  simp_all

/-- The sheet of a grid holds the texts of the cells. -/
theorem text?_sheet (g : Grid) (a : Address) : g.sheet.text? a = (g.cell? a).map Cell.text :=
  Std.ExtTreeMap.getElem?_map

/-- Showing something changes one cell. -/
theorem getElem?_display {cells : Std.ExtTreeMap Address Cell} {b : Address} {shown : Shown} :
    (display cells b (some shown))[a]? =
      if b = a then cells[a]?.map (Cell.showing · shown) else cells[a]? := by
  rw [display, Std.ExtTreeMap.getElem?_modify]
  simp only [Std.compare_eq_iff_eq]
  by_cases h : b = a
  · subst h
    rfl
  · rw [if_neg h, if_neg h]

/-- One target of a pass. -/
def passStep (s : Sheet) (p : Std.ExtTreeMap Address Cell × Memo) (a : Address) :
    Std.ExtTreeMap Address Cell × Memo :=
  (display p.1 a (s.shown? a p.2).1, (s.shown? a p.2).2)

/-- A pass is a fold of its steps over the targets. -/
theorem recalculate_eq (g : Grid) (targets : List Address) :
    g.recalculate targets =
      { g with cells := (targets.foldl (passStep g.sheet) (g.cells, ∅)).1 } :=
  rfl

/-- Some cells have the texts that a sheet holds. -/
def HasTexts (s : Sheet) (cells : Std.ExtTreeMap Address Cell) : Prop :=
  ∀ (a : Address) (cell : Cell), cells[a]? = some cell → s.text? a = some cell.text

/-- A target shows what it is to show, and the other cells stay as they are. -/
theorem getElem?_passStep {p : Std.ExtTreeMap Address Cell × Memo} (hmemo : s.Settled p.2)
    (htext : HasTexts s p.1) (b a : Address) :
    (passStep s p b).1[a]? =
      p.1[a]?.map fun cell => if b = a then cell.showing (s.outcome a cell.text) else cell := by
  rw [passStep, (s.shown?_settled hmemo b).1]
  cases hb : s.text? b with
  | none =>
    cases ha : p.1[a]? with
    | none => exact ha
    | some cell =>
      have hne : b ≠ a := by
        rintro rfl
        have heq := htext b cell ha
        rw [hb] at heq
        cases heq
      rw [Option.map_some, if_neg hne]
      exact ha
  | some text =>
    rw [Option.map_some, getElem?_display]
    by_cases h : b = a
    · subst h
      simp only [if_true]
      cases ha : p.1[b]? with
      | none => rfl
      | some cell =>
        have heq := htext b cell ha
        rw [hb, Option.some.injEq] at heq
        rw [Option.map_some, Option.map_some, heq]
    · simp only [if_neg h, Option.map_id']

/-- A pass over some cells of a sheet. -/
theorem getElem?_foldl_passStep {p : Std.ExtTreeMap Address Cell × Memo}
    (hmemo : s.Settled p.2) (htext : HasTexts s p.1) (a : Address) :
    (targets.foldl (passStep s) p).1[a]? = p.1[a]?.map fun cell =>
      if a ∈ targets then cell.showing (s.outcome a cell.text) else cell := by
  induction targets generalizing p with
  | nil => simp
  | cons b targets ih =>
    have hstep := getElem?_passStep hmemo htext b
    have htext' : HasTexts s (passStep s p b).1 := by
      intro c cell hc
      rw [hstep c, Option.map_eq_some_iff] at hc
      obtain ⟨old, hold, rfl⟩ := hc
      rw [htext c old hold]
      split <;> rfl
    rw [List.foldl_cons, ih (s.shown?_settled hmemo b).2 htext', hstep a, Option.map_map]
    congr 1
    funext cell
    simp only [Function.comp_apply, List.mem_cons, eq_comm (a := a) (b := b)]
    by_cases hb : b = a
    · by_cases ha : a ∈ targets <;> simp [hb, ha]
    · simp [hb]

/-- The cells of a grid after a pass. -/
theorem cell?_recalculate (g : Grid) (targets : List Address) (a : Address) :
    (g.recalculate targets).cell? a = (g.cell? a).map fun cell =>
      if a ∈ targets then cell.showing (g.sheet.outcome a cell.text) else cell := by
  have htext : HasTexts g.sheet g.cells := by
    intro b cell hb
    have hcell : g.cell? b = some cell := hb
    rw [text?_sheet, hcell, Option.map_some]
  rw [recalculate_eq]
  exact getElem?_foldl_passStep (Sheet.Settled.empty g.sheet) htext a

/-- A pass changes no text. -/
theorem sheet_recalculate (g : Grid) (targets : List Address) :
    (g.recalculate targets).sheet = g.sheet := by
  refine Sheet.ext_text? fun a => ?_
  rw [text?_sheet, text?_sheet, cell?_recalculate, Option.map_map]
  congr 1
  funext cell
  simp only [Function.comp_apply]
  split <;> rfl

/-- Targets with the same members give the same pass. -/
theorem recalculate_congr (g : Grid) {targets targets' : List Address}
    (h : ∀ a, a ∈ targets ↔ a ∈ targets') : g.recalculate targets = g.recalculate targets' := by
  refine ext_cell? (fun a => ?_) rfl rfl rfl
  simp only [cell?_recalculate, h a]

/-- A pass shows each target that is there what it is to show, a function of the texts alone. The
order of the targets does not matter, and nothing else changes. -/
theorem recalculate_meets_outcome (g : Grid) (targets : List Address) :
    (∀ a, (g.recalculate targets).cell? a = (g.cell? a).map fun cell =>
      if a ∈ targets then
        ⟨cell.text, (g.sheet.outcome a cell.text).display, (g.sheet.outcome a cell.text).message⟩
      else cell) ∧
    (g.recalculate targets).rows = g.rows ∧
    (g.recalculate targets).columns = g.columns ∧
    (g.recalculate targets).pending = g.pending ∧
    ∀ targets', (∀ a, a ∈ targets' ↔ a ∈ targets) →
      g.recalculate targets' = g.recalculate targets :=
  ⟨g.cell?_recalculate targets, rfl, rfl, rfl, fun _ h => g.recalculate_congr h⟩

/-- A literal, a value, an error of each kind, a mistake in the shape, a circle and a blank cell,
with a target that is not there, in two orders. -/
theorem recalculate_meets_outcome_swap :
    ∃ g, Grid.ofRows [["2", "=(A1*3)", "=(Z9)", "=(A1/0)", "=(1++2)", "=(F1)", " "]] = .ok g ∧
      let targets : List Address :=
        [⟨0, 0⟩, ⟨0, 1⟩, ⟨0, 2⟩, ⟨0, 3⟩, ⟨0, 4⟩, ⟨0, 5⟩, ⟨0, 6⟩, ⟨8, 25⟩]
      targets.map (g.recalculate targets).cell? =
        [some ⟨"2", "2", none⟩, some ⟨"=(A1*3)", "6", none⟩,
          some ⟨"=(Z9)", "#REF", some "reference to a missing cell"⟩,
          some ⟨"=(A1/0)", "#ERROR", some "invalid formula or operand"⟩,
          some ⟨"=(1++2)", "#ERROR", some "illegal operator sequence '++'"⟩,
          some ⟨"=(F1)", "#CYCLE", some "circular reference"⟩, some ⟨" ", "", none⟩, none] ∧
      g.recalculate targets.reverse = g.recalculate targets := by
  let known : List (Address × Value) := [(⟨0, 1⟩, .number 6), (⟨0, 2⟩, .error .missing),
    (⟨0, 3⟩, .error .invalid), (⟨0, 0⟩, .number 2), (⟨8, 25⟩, .error .missing)]
  obtain ⟨g, hg, htexts, hknown, hflat, hself⟩ :
      ∃ g, Grid.ofRows [["2", "=(A1*3)", "=(Z9)", "=(A1/0)", "=(1++2)", "=(F1)", " "]] = .ok g ∧
        (([⟨0, 0⟩, ⟨0, 1⟩, ⟨0, 2⟩, ⟨0, 3⟩, ⟨0, 4⟩, ⟨0, 5⟩, ⟨0, 6⟩, ⟨8, 25⟩] : List Address).map
          g.sheet.text? = [some "2", some "=(A1*3)", some "=(Z9)", some "=(A1/0)",
            some "=(1++2)", some "=(F1)", some " ", none]) ∧
        g.sheet.tabulates known = true ∧
        (∀ p ∈ known, ∀ a ∈ g.sheet.references p.1, g.sheet.isFormula a = false) ∧
        g.sheet.references ⟨0, 5⟩ = [⟨0, 5⟩] :=
    ⟨_, rfl, by decide +kernel, by decide +kernel, by decide +kernel, by decide +kernel⟩
  simp only [List.map_cons, List.map_nil, List.cons.injEq, and_true] at htexts
  obtain ⟨h0, h1, h2, h3, h4, h5, h6, hgone⟩ := htexts
  refine ⟨g, hg, ?_⟩
  intro targets
  obtain ⟨hcell, -, -, -, hsame⟩ := g.recalculate_meets_outcome targets
  refine ⟨?_, hsame _ fun a => List.mem_reverse⟩
  have hshown : ∀ a text shown, g.sheet.text? a = some text → a ∈ targets →
      g.sheet.outcome a text = shown →
      (g.recalculate targets).cell? a = some ⟨text, shown.display, shown.message⟩ := by
    rintro a text _ ha hmem rfl
    rw [text?_sheet, Option.map_eq_some_iff] at ha
    obtain ⟨cell, hold, rfl⟩ := ha
    rw [hcell, hold, Option.map_some, if_pos hmem]
  -- The formulas with values read cells without formulas.
  have hvalue : ∀ a text v, (a, v) ∈ known → Content.ofText text = .formula text →
      Formula.Shape.fault? text = none → g.sheet.outcome a text = .ofValue v :=
    fun a text v hv hformula hshape => Sheet.outcome_of_plainValue? hformula hshape
      (Sheet.grounded_of_not_formulas (hflat (a, v) hv)) (Sheet.plainValue?_of_tabulates hknown hv)
  have hcircle : g.sheet.outcome ⟨0, 5⟩ "=(F1)" = ⟨"#CYCLE", some "circular reference"⟩ := by
    refine Sheet.outcome_of_circular (by decide) (by decide +kernel)
      ⟨⟨0, 5⟩, .refl, .single ⟨?_, by rw [h5]; rfl⟩⟩
    rw [Sheet.Mentions, hself]
    exact List.mem_singleton_self _
  have hproduct := hvalue ⟨0, 1⟩ "=(A1*3)" (.number 6) (by decide +kernel) (by decide)
    (by decide +kernel)
  have hmissing := hvalue ⟨0, 2⟩ "=(Z9)" (.error .missing) (by decide +kernel) (by decide)
    (by decide +kernel)
  have hquotient := hvalue ⟨0, 3⟩ "=(A1/0)" (.error .invalid) (by decide +kernel) (by decide)
    (by decide +kernel)
  have hsix : Shown.ofValue (.number 6) = ⟨"6", none⟩ := by decide +kernel
  have hsigns : g.sheet.outcome ⟨0, 4⟩ "=(1++2)" =
      ⟨"#ERROR", some "illegal operator sequence '++'"⟩ :=
    Sheet.outcome_of_fault (by decide) (by decide +kernel : _ = some (.illegalPair '+' '+'))
  have hnone : (g.recalculate targets).cell? ⟨8, 25⟩ = none := by
    rw [text?_sheet, Option.map_eq_none_iff] at hgone
    rw [hcell, hgone, Option.map_none]
  simp only [targets, List.map_cons, List.map_nil]
  rw [hshown _ _ ⟨"2", none⟩ h0 (by decide) rfl, hshown _ _ _ h1 (by decide) (hproduct.trans hsix),
    hshown _ _ _ h2 (by decide) hmissing, hshown _ _ _ h3 (by decide) hquotient,
    hshown _ _ _ h4 (by decide) hsigns, hshown _ _ _ h5 (by decide) hcircle,
    hshown _ _ ⟨"", none⟩ h6 (by decide) rfl, hnone]
  rfl

end Grid

end Spreadsheet
