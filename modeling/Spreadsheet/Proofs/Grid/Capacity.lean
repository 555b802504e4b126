import Spreadsheet.Proofs.Grid.Rectangle

/-!
# The capacity of a grid

A grid is built within its capacity and grown within it, but a line is added without asking for
room. So the capacity holds throughout a run exactly if every line that is added finds room, and
a grid that has outgrown it refuses to grow even to the cells that it has.
-/

namespace Spreadsheet.Grid

variable {g g' : Grid} {d : Dimension} {a : Address}

/-- The cells fit into the capacity, by the extents and by count. -/
def WithinCapacity (g : Grid) : Prop := g.rows * g.columns ≤ capacity ∧ g.size ≤ capacity

instance (g : Grid) : Decidable g.WithinCapacity := inferInstanceAs (Decidable (_ ∧ _))

/-- Another line in a direction fits into the capacity. -/
def HasRoom (g : Grid) (d : Dimension) : Prop :=
  (g.extent d + 1) * g.extent d.cross ≤ capacity

/-- For a rectangle the extents decide. -/
theorem Rectangular.withinCapacity_iff (h : g.Rectangular) :
    g.WithinCapacity ↔ g.rows * g.columns ≤ capacity := by
  rw [WithinCapacity, h.size_eq, and_self]

/-- The product of the extents, seen in one direction. -/
theorem extent_mul_cross (g : Grid) (d : Dimension) :
    g.extent d * g.extent d.cross = g.rows * g.columns := by
  cases d with
  | row => rfl
  | column => exact Nat.mul_comm ..

/-- Within the capacity an extent is at the top of its range only where there are no cells. -/
theorem fits_of_le (h : g.rows * g.columns ≤ capacity) (d : Dimension) :
    g.extent d + 1 < extentBound ∨ g.extent d.cross = 0 := by
  rw [← extent_mul_cross g d] at h
  refine or_iff_not_imp_right.mpr fun hcross => ?_
  have hextent : g.extent d ≤ capacity :=
    le_trans (Nat.le_mul_of_pos_right _ (Nat.pos_of_ne_zero hcross)) h
  simp only [capacity, extentBound, UInt64.size] at *
  omega

/-- A line that is added to a rectangle keeps to the capacity exactly if it finds room. -/
theorem Rectangular.withinCapacity_extend_iff (h : g.Rectangular) (d : Dimension) :
    (g.extend d).WithinCapacity ↔ g.HasRoom d := by
  obtain ⟨hextent, hcross⟩ := extent_extend g d
  rw [(h.extend d).withinCapacity_iff, ← extent_mul_cross _ d, hextent, hcross, HasRoom]

/-- Cutting off a line leaves no more cells. -/
theorem Cut.mul_le (h : Cut d g g') : g'.rows * g'.columns ≤ g.rows * g.columns := by
  rw [← extent_mul_cross g d, ← extent_mul_cross g' d, h.cross, h.extent]
  exact Nat.mul_le_mul_right _ (Nat.le_succ _)

/-- A grid that grows to fit a cell keeps to its capacity. -/
theorem growToFit_le (hgrow : g.growToFit a = .ok g') : g'.rows * g'.columns ≤ capacity := by
  obtain ⟨hrows, hcolumns⟩ := checked_growToFit hgrow
  rw [hrows, hcolumns]
  exact (growToFit_eq_ok_iff.mp hgrow).1

/-- Operations that add and remove no cells leave the extents alone. -/
theorem extent_apply {command : Command} (hshape : command.reshapes = false)
    (happly : g.apply command = .ok g') (d : Dimension) : g'.extent d = g.extent d := by
  have htry : ∀ result : Except GridError Grid,
      (∀ g', result = .ok g' → g'.extent d = g.extent d) →
        (g.attempt result).extent d = g.extent d := fun _ =>
    attempt_of (P := fun g' => g'.extent d = g.extent d) rfl
  have hset : ∀ a text g', g.setText a text = .ok g' → g'.extent d = g.extent d := by
    intro a text g' hset
    obtain ⟨cell, _, rfl⟩ := setText_eq_ok_iff.mp hset
    rfl
  cases command with
  | setText a text =>
    cases happly
    exact htry _ (hset a text)
  | set name text =>
    cases happly
    refine htry _ fun g' hnamed => ?_
    obtain ⟨a, _, hnamed⟩ := set_eq_ok_iff.mp hnamed
    exact hset a text g' hnamed
  | addLine d => cases hshape
  | removeLine d => cases hshape
  | growToFit a => cases hshape
  | _ =>
    cases happly
    rfl

/-- Operations other than adding a line keep to the capacity. -/
theorem apply_le (hold : g.rows * g.columns ≤ capacity) {command : Command}
    (hline : ∀ d, command ≠ .addLine d) (happly : g.apply command = .ok g') :
    g'.rows * g'.columns ≤ capacity := by
  cases hshape : command.reshapes with
  | false =>
    rw [← extent_mul_cross _ .row, extent_apply hshape happly, extent_apply hshape happly]
    exact hold
  | true =>
    cases command with
    | addLine d => exact absurd rfl (hline d)
    | removeLine d =>
      cases happly
      exact attempt_of (P := fun g' => g'.rows * g'.columns ≤ capacity) hold
        fun _ hcut => (cut_removeLine hcut).mul_le.trans hold
    | growToFit a =>
      cases happly
      exact attempt_of (P := fun g' => g'.rows * g'.columns ≤ capacity) hold
        fun _ hgrow => growToFit_le hgrow
    | _ => cases hshape

/-- Growing to a cell that is there changes nothing, and is refused if the grid has outgrown its
capacity. -/
theorem Rectangular.growToFit_of_contains (h : g.Rectangular) (ha : g.contains a = true) :
    g.growToFit a = if g.rows * g.columns ≤ capacity then .ok g
      else .error (.tooLarge g.rows g.columns) := by
  obtain ⟨hrow, hcolumn⟩ := (h a).mp ha
  have hrows : max g.rows (extentFor a.row) = g.rows :=
    Nat.max_eq_left (le_trans (Nat.min_le_left _ _) hrow)
  have hcolumns : max g.columns (extentFor a.column) = g.columns :=
    Nat.max_eq_left (le_trans (Nat.min_le_left _ _) hcolumn)
  have hwide : a.column + 1 - g.columns = 0 := by omega
  have hlong : a.row + 1 - g.rows = 0 := by omega
  unfold Grid.growToFit checkSize
  rw [hrows, hcolumns, hwide]
  split
  · change Except.ok (g.extendBy .row (a.row + 1 - g.rows)) = _
    rw [hlong]
    rfl
  · rfl

/-- A grid keeps to its capacity when it is built. -/
theorem Built.le_capacity (h : g.Built) : g.rows * g.columns ≤ capacity := by
  cases h with
  | ofSize rows columns h =>
    obtain ⟨hsize, rfl⟩ := ofSize_eq_ok_iff.mp h
    exact hsize
  | ofRows rows h =>
    obtain ⟨empty, hempty, _⟩ := ofRows_eq_ok_iff.mp h
    obtain ⟨hsize, _⟩ := ofSize_eq_ok_iff.mp hempty
    obtain ⟨_, hrows, hcolumns⟩ := rectangular_ofRows h
    rw [hrows, hcolumns]
    exact hsize

/-- If every line that is added finds room, the capacity holds at the end. -/
theorem run_le (hrect : g.Rectangular) (hold : g.rows * g.columns ≤ capacity)
    {commands : List Command} (hroom : ∀ before d, before ++ [.addLine d] <+: commands →
      ∀ g', g.run before = .ok g' → g'.HasRoom d)
    (hrun : g.run commands = .ok g') : g'.rows * g'.columns ≤ capacity := by
  induction commands using List.reverseRecOn generalizing g' with
  | nil =>
    cases hrun
    exact hold
  | append_singleton commands command ih =>
    obtain ⟨before, hbefore, happly⟩ := run_concat_eq_ok_iff.mp hrun
    have hle := ih (fun start d hstart => hroom start d (hstart.trans (List.prefix_append _ _)))
      hbefore
    by_cases hline : ∃ d, command = .addLine d
    · obtain ⟨d, rfl⟩ := hline
      obtain ⟨_, rfl⟩ := addLine_eq_ok_iff.mp happly
      have hfound := hroom commands d (List.prefix_refl _) before hbefore
      exact ((hrect.run hbefore).withinCapacity_extend_iff d).mpr hfound |>.1
    · exact apply_le hle (fun d hd => hline ⟨d, hd⟩) happly

/-- The capacity holds throughout a run exactly if every line that is added finds room. Growing to
a cell that is there changes nothing if the capacity holds at the time, and is refused if it does
not. -/
theorem run_withinCapacity_iff (h : g.Built) (commands : List Command) :
    ((∀ before, before <+: commands → ∀ g', g.run before = .ok g' → g'.WithinCapacity) ↔
      ∀ before d, before ++ [.addLine d] <+: commands →
        ∀ g', g.run before = .ok g' → g'.HasRoom d) ∧
    ∀ g', g.run commands = .ok g' → ∀ a, g'.contains a = true →
      g'.growToFit a = if g'.WithinCapacity then .ok g'
        else .error (.tooLarge g'.rows g'.columns) := by
  refine ⟨⟨fun hcapacity before d hbefore g' hrun => ?_, fun hroom before hbefore g' hrun => ?_⟩,
    fun g' hrun a ha => ?_⟩
  · have hrect : g'.Rectangular := h.rectangular.run hrun
    have hstart := (List.prefix_append before [.addLine d]).trans hbefore
    have hle := (hcapacity before hstart g' hrun).1
    rcases fits_of_le hle d with hfit | hempty
    · have happly : g'.apply (.addLine d) = .ok (g'.extend d) := addLine_eq_ok_iff.mpr ⟨hfit, rfl⟩
      have hadded := hcapacity _ hbefore _ (run_concat_eq_ok_iff.mpr ⟨g', hrun, happly⟩)
      exact (hrect.withinCapacity_extend_iff d).mp hadded
    · rw [HasRoom, hempty, Nat.mul_zero]
      exact Nat.zero_le _
  · refine (h.rectangular.run hrun).withinCapacity_iff.mpr
      (run_le h.rectangular h.le_capacity ?_ hrun)
    exact fun start d hstart => hroom start d (hstart.trans hbefore)
  · have hrect := h.rectangular.run hrun
    simp only [hrect.growToFit_of_contains ha, hrect.withinCapacity_iff]

/-- The last row of a full grid is removed and added again: it finds the room that it had. -/
theorem run_withinCapacity_iff_full :
    ∃ g, Grid.ofSize capacity 1 = .ok g ∧
      (∀ before, before <+: [.removeLine .row, .addLine .row] →
        ∀ g', g.run before = .ok g' → g'.WithinCapacity) ∧
      ∃ g', g.run [.removeLine .row, .addLine .row] = .ok g' ∧ g'.rows = capacity := by
  obtain ⟨g, old, hg, hold, hrows, hcolumns, hlast⟩ : ∃ g old, Grid.ofSize capacity 1 = .ok g ∧
      g.run [.removeLine .row] = .ok old ∧ old.rows = capacity - 1 ∧ old.columns = 1 ∧
      (old.extend .row).rows = capacity :=
    ⟨_, _, ofSize_eq_ok_iff.mpr ⟨by decide, rfl⟩, rfl, rfl, rfl, rfl⟩
  have hfit : old.extent .row + 1 < extentBound := by
    change old.rows + 1 < extentBound
    rw [hrows]
    decide
  have happly : old.apply (.addLine .row) = .ok (old.extend .row) :=
    addLine_eq_ok_iff.mpr ⟨hfit, rfl⟩
  have hcapacity := run_withinCapacity_iff (.ofSize capacity 1 hg) [.removeLine .row, .addLine .row]
  refine ⟨g, hg, hcapacity.1.mpr fun before d hbefore g' hrun => ?_, old.extend .row,
    run_concat_eq_ok_iff.mpr ⟨old, hold, happly⟩, hlast⟩
  obtain ⟨rfl, rfl⟩ : before = [.removeLine .row] ∧ d = .row := by
    rcases before with _ | ⟨command, _ | ⟨command', before⟩⟩ <;>
      simp_all [List.cons_prefix_cons]
  obtain rfl := Except.ok.inj (hold.symm.trans hrun)
  change (old.rows + 1) * old.columns ≤ capacity
  rw [hrows, hcolumns]
  decide

/-- A row is added to a full grid. Then the grid has outgrown its capacity, and growing it to its
first cell is refused. -/
theorem not_withinCapacity_addLine :
    ∃ g g', Grid.ofSize capacity 1 = .ok g ∧ g.run [.addLine .row] = .ok g' ∧
      ¬ g'.WithinCapacity ∧ g'.contains ⟨0, 0⟩ = true ∧
      g'.growToFit ⟨0, 0⟩ = .error (.tooLarge (capacity + 1) 1) := by
  obtain ⟨g, hg, hrows, hrows', hcolumns'⟩ : ∃ g, Grid.ofSize capacity 1 = .ok g ∧
      g.rows = capacity ∧ (g.extend .row).rows = capacity + 1 ∧ (g.extend .row).columns = 1 :=
    ⟨_, ofSize_eq_ok_iff.mpr ⟨by decide, rfl⟩, rfl, rfl, rfl⟩
  have hfit : g.extent .row + 1 < extentBound := by
    change g.rows + 1 < extentBound
    rw [hrows]
    decide
  have happly : g.apply (.addLine .row) = .ok (g.extend .row) := addLine_eq_ok_iff.mpr ⟨hfit, rfl⟩
  have hrect : (g.extend .row).Rectangular := (rectangular_ofSize hg).1.extend .row
  have hfirst : (g.extend .row).contains ⟨0, 0⟩ = true := by
    rw [hrect, hrows', hcolumns']
    decide
  have hover : ¬ (capacity + 1) * 1 ≤ capacity := by decide
  refine ⟨g, g.extend .row, hg, (g.run_singleton _).trans happly, ?_, hfirst, ?_⟩
  · rw [hrect.withinCapacity_iff, hrows', hcolumns']
    exact hover
  · rw [hrect.growToFit_of_contains hfirst, hrows', hcolumns', if_neg hover]

end Spreadsheet.Grid
