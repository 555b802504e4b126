import Spreadsheet.Proofs.Grid.Capacity

/-!
# Exact extents

A line that is added is to raise an extent by one, and a line that is removed is to lower it by
one. Extents are words, and nothing looks at an extent before it is raised: the size that is
checked when a grid is built or grown is a product, which bounds no extent where the other one is
zero. So a run overflows if and only if a line is added at the top of the range, and all extents of
a run that does not are exact. A grid that has a cell when it is built is out of reach of the top.
-/

namespace Spreadsheet.Grid

variable {g g' : Grid} {d : Dimension} {a : Address} {command : Command} {commands : List Command}

/-- What an operation is to do to the extents, which are taken as numbers and not as words. -/
def ExactExtents (g : Grid) : Command → Prop
  | .addLine d => ∃ g', g.addLine d = .ok g' ∧ g'.extent d = g.extent d + 1 ∧
      g'.extent d.cross = g.extent d.cross
  | .removeLine d => ∀ g', g.removeLine d = .ok g' →
      g.extent d = g'.extent d + 1 ∧ g'.extent d.cross = g.extent d.cross
  | .growToFit a => ∀ g', g.growToFit a = .ok g' → ∀ d,
      g'.extent d = g.extent d + (d.coordinate a + 1 - g.extent d) ∧ g'.extent d < extentBound
  | command => ∀ g', g.apply command = .ok g' → ∀ d, g'.extent d = g.extent d

/-- Whether an operation is the one that adds a line in a direction. -/
def Command.adds (d : Dimension) : Command → Bool
  | .addLine d' => d' = d
  | _ => false

/-- A line raises the extent exactly below the top of the range. -/
theorem exactExtents_addLine_iff :
    g.ExactExtents (.addLine d) ↔ g.extent d + 1 < extentBound := by
  constructor
  · rintro ⟨g', hadd, _⟩
    exact (addLine_eq_ok_iff.mp hadd).1
  · intro hfit
    exact ⟨g.extend d, addLine_eq_ok_iff.mpr ⟨hfit, rfl⟩, extent_extend g d⟩

/-- A grid that has grown to fit a cell has no extent beyond the capacity. -/
theorem extent_growToFit_le (hgrow : g.growToFit a = .ok g') (d : Dimension) :
    g'.extent d ≤ capacity := by
  obtain ⟨hrows, hcolumns⟩ := extents_growToFit hgrow
  have hcross : 0 < g'.extent d.cross := by
    cases d with
    | row => exact ((Nat.succ_pos _).trans_le (Nat.le_max_right _ _)).trans_eq hcolumns.symm
    | column => exact ((Nat.succ_pos _).trans_le (Nat.le_max_right _ _)).trans_eq hrows.symm
  refine le_trans (Nat.le_mul_of_pos_right _ hcross) ?_
  rw [extent_mul_cross]
  exact growToFit_le hgrow

/-- All operations but adding a line are exact. -/
theorem exactExtents_of_ne (hline : ∀ d, command ≠ .addLine d) : g.ExactExtents command := by
  cases command with
  | addLine d => exact absurd rfl (hline d)
  | removeLine d =>
    intro g' hcut
    exact ⟨(cut_removeLine hcut).extent, (cut_removeLine hcut).cross⟩
  | growToFit a =>
    intro g' hgrow d
    obtain ⟨hrows, hcolumns⟩ := extents_growToFit hgrow
    have hcapacity : capacity < extentBound := by decide
    refine ⟨?_, (extent_growToFit_le hgrow d).trans_lt hcapacity⟩
    cases d with
    | row =>
      change g'.rows = g.rows + (a.row + 1 - g.rows)
      omega
    | column =>
      change g'.columns = g.columns + (a.column + 1 - g.columns)
      omega
  | setText a text => exact fun _ happly => extent_apply rfl happly
  | set name text => exact fun _ happly => extent_apply rfl happly
  | takePending => exact fun _ happly => extent_apply rfl happly
  | recalculateCell a => exact fun _ happly => extent_apply rfl happly
  | recalculateChanged changed => exact fun _ happly => extent_apply rfl happly
  | recalculatePending => exact fun _ happly => extent_apply rfl happly
  | recalculateAll => exact fun _ happly => extent_apply rfl happly

/-- An operation raises an extent by one at most, unless it grows the grid within the capacity. -/
theorem extent_apply_le (happly : g.apply command = .ok g') (d : Dimension) :
    g'.extent d ≤ max (g.extent d) capacity + if command.adds d then 1 else 0 := by
  cases hshape : command.reshapes with
  | false =>
    rw [extent_apply hshape happly]
    omega
  | true =>
    cases command with
    | addLine d' =>
      obtain ⟨_, rfl⟩ := addLine_eq_ok_iff.mp happly
      obtain ⟨hextent, hcross⟩ := extent_extend g d'
      obtain rfl | rfl := Dimension.eq_or_eq_cross d' d
      · simp only [Command.adds, decide_true, if_true]
        omega
      · omega
    | removeLine d' =>
      cases happly
      refine attempt_of (P := fun g' => g'.extent d ≤ _) (by omega) fun g' hcut => ?_
      have hextent := (cut_removeLine hcut).extent
      have hcross := (cut_removeLine hcut).cross
      obtain rfl | rfl := Dimension.eq_or_eq_cross d' d <;> omega
    | growToFit a =>
      cases happly
      refine attempt_of (P := fun g' => g'.extent d ≤ _) (by omega) fun g' hgrow => ?_
      have hextent := extent_growToFit_le hgrow d
      omega
    | _ => cases hshape

/-- The lines that a run adds bound its extents. -/
theorem extent_run_le (hrun : g.run commands = .ok g') (d : Dimension) :
    g'.extent d ≤ max (g.extent d) capacity + commands.countP (Command.adds d) := by
  induction commands using List.reverseRecOn generalizing g' with
  | nil =>
    cases hrun
    exact le_max_left _ _
  | append_singleton commands command ih =>
    obtain ⟨before, hbefore, happly⟩ := run_concat_eq_ok_iff.mp hrun
    rw [List.countP_append, List.countP_singleton]
    have hstart := ih hbefore
    have hstep := extent_apply_le happly d
    omega

/-- A run with too few lines to reach the top of the range. -/
theorem noOverflow_of_count
    (hcount : ∀ d, max (g.extent d) capacity + commands.countP (Command.adds d) < extentBound) :
    g.NoOverflow commands := by
  intro before d hbefore g' hrun
  have hle := extent_run_le hrun d
  have hlines := hbefore.sublist.countP_le (p := Command.adds d)
  rw [List.countP_append, List.countP_singleton] at hlines
  have hadds : Command.adds d (.addLine d) = true := decide_eq_true rfl
  rw [if_pos hadds] at hlines
  have hfit := hcount d
  omega

/-- From a grid that has a cell when it is built, a run reaches the top of the range only if it is
as long as the range, less the capacity. -/
theorem Built.noOverflow (h : g.Built) (hcells : g.rows * g.columns ≠ 0)
    (hlength : capacity + commands.length < extentBound) : g.NoOverflow commands := by
  refine noOverflow_of_count fun d => ?_
  have hextent : g.extent d ≤ capacity := by
    refine le_trans (Nat.le_mul_of_pos_right _ (Nat.pos_of_ne_zero ?_))
      ((extent_mul_cross g d).trans_le h.le_capacity)
    exact (Nat.mul_ne_zero_iff.mp (extent_mul_cross g d ▸ hcells)).2
  have hlines := List.countP_le_length (p := Command.adds d) (l := commands)
  omega

/-- The extents of a run are exact at every step, so that none overflows, if and only if no line is
added at the top of the range; and if one is, the run overflows in its direction there. The top is
not reached if the lines that are added make a word together with the extent at the start, or with
the capacity if that is more. So it is not reached from a grid that is built with a cell, unless
the run is as long as the range, less the capacity. -/
theorem extents_exact_iff_noOverflow (g : Grid) (commands : List Command) :
    ((∀ before command, before ++ [command] <+: commands →
        ∃ g', g.run before = .ok g' ∧ g'.ExactExtents command) ↔ g.NoOverflow commands) ∧
      ((∃ g', g.run commands = .ok g') ↔ g.NoOverflow commands) ∧
      (∀ before d g', before ++ [.addLine d] <+: commands → g.run before = .ok g' →
        extentBound ≤ g'.extent d + 1 → g.run commands = .error ⟨d⟩) ∧
      ((∀ d, max (g.extent d) capacity + commands.countP (Command.adds d) < extentBound) →
        g.NoOverflow commands) ∧
      (g.Built → g.rows * g.columns ≠ 0 → capacity + commands.length < extentBound →
        g.NoOverflow commands) := by
  refine ⟨⟨fun hexact before d hbefore g' hrun => ?_, fun hfits before command hbefore => ?_⟩,
    exists_run_iff, fun before d g' hbefore hrun hover => ?_, noOverflow_of_count, Built.noOverflow⟩
  · obtain ⟨old, hold, hstep⟩ := hexact before _ hbefore
    obtain rfl := Except.ok.inj (hrun.symm.trans hold)
    exact exactExtents_addLine_iff.mp hstep
  · obtain ⟨old, hold⟩ :=
      exists_run_iff.mpr (hfits.of_prefix ((List.prefix_append before [command]).trans hbefore))
    refine ⟨old, hold, ?_⟩
    by_cases hline : ∃ d, command = .addLine d
    · obtain ⟨d, rfl⟩ := hline
      exact exactExtents_addLine_iff.mpr (hfits before d hbefore old hold)
    · exact exactExtents_of_ne fun d hd => hline ⟨d, hd⟩
  · obtain ⟨after, rfl⟩ := hbefore
    have happly : g'.apply (.addLine d) = .error ⟨d⟩ := if_neg (by omega)
    rw [run_append, run_concat, hrun]
    change ((g'.apply (.addLine d)).bind _) = _
    rw [happly]
    rfl

/-- A row is removed from a small grid, a column is added, and the grid grows to fit a cell: the
extents are exact at every step. -/
theorem extents_exact_iff_noOverflow_small :
    ∃ g, Grid.ofSize 2 3 = .ok g ∧
      ∀ before command,
        before ++ [command] <+: [.removeLine .row, .addLine .column, .growToFit ⟨4, 4⟩] →
        ∃ g', g.run before = .ok g' ∧ g'.ExactExtents command := by
  obtain ⟨g, hg, hrows, hcolumns⟩ : ∃ g, Grid.ofSize 2 3 = .ok g ∧ g.rows = 2 ∧ g.columns = 3 :=
    ⟨_, ofSize_eq_ok_iff.mpr ⟨by decide, rfl⟩, rfl, rfl⟩
  obtain ⟨hexact, _, _, _, hbuilt⟩ :=
    extents_exact_iff_noOverflow g [.removeLine .row, .addLine .column, .growToFit ⟨4, 4⟩]
  refine ⟨g, hg, hexact.mpr (hbuilt (.ofSize 2 3 hg) ?_ (by decide))⟩
  rw [hrows, hcolumns]
  decide

/-- A grid without columns may have as many rows as a word can count. Another row is added, and the
number of rows overflows. -/
theorem not_exactExtents_addLine :
    ∃ g, Grid.ofSize (extentBound - 1) 0 = .ok g ∧ ¬ g.ExactExtents (.addLine .row) ∧
      g.run [.addLine .row] = .error ⟨.row⟩ := by
  obtain ⟨g, hg, hrows⟩ : ∃ g, Grid.ofSize (extentBound - 1) 0 = .ok g ∧
      g.rows = extentBound - 1 := ⟨_, ofSize_eq_ok_iff.mpr ⟨by decide, rfl⟩, rfl⟩
  have htop : ¬ g.extent .row + 1 < extentBound := by
    change ¬ g.rows + 1 < extentBound
    omega
  exact ⟨g, hg, mt exactExtents_addLine_iff.mp htop, (g.run_singleton _).trans (if_neg htop)⟩

end Spreadsheet.Grid
