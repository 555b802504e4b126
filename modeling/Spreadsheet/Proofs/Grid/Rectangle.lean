import Spreadsheet.Proofs.Grid.Incremental

/-!
# The rectangle of a grid

The cells of a grid are those whose row and column lie below its extents, however the grid was
built and changed. A line is added along the extent across, so it consists of cells that were not
there; the line that is removed consists of the cells at the last coordinate. From the rectangle
follow the order in which the cells are listed and their number, and that a cell outlives every
change of shape that does not remove it.
-/

namespace Spreadsheet

/-- Addresses are in order if their rows are, or their columns in the same row. -/
theorem Address.compare_eq_lt_iff {a b : Address} :
    compare a b = .lt ↔ a.row < b.row ∨ a.row = b.row ∧ a.column < b.column := by
  change (compare a.row b.row).then (compare a.column b.column) = .lt ↔ _
  rw [Ordering.then_eq_lt, Nat.compare_eq_lt, Nat.compare_eq_eq, Nat.compare_eq_lt]

theorem Dimension.eq_or_eq_cross (d d' : Dimension) : d' = d ∨ d' = d.cross := by
  cases d <;> cases d' <;> simp [cross]

/-- The addresses of a line share a coordinate and stay below its length in the other one. -/
theorem Dimension.mem_line_iff {d : Dimension} {coordinate length : Nat} {a : Address} :
    a ∈ d.line coordinate length ↔
      d.coordinate a = coordinate ∧ d.cross.coordinate a < length := by
  rcases a with ⟨row, column⟩
  cases d <;> simp [line, Dimension.coordinate, cross, eq_comm, and_comm]

namespace Grid

variable {g g' g'' : Grid} {d : Dimension} {a : Address}

theorem contains_iff : g.contains a = true ↔ (g.cell? a).isSome = true := by
  rw [contains, Std.ExtTreeMap.contains_eq_isSome_getElem?]
  rfl

/-- The cells of a grid are those below its extents. -/
def Rectangular (g : Grid) : Prop :=
  ∀ a, g.contains a = true ↔ a.row < g.rows ∧ a.column < g.columns

/-- A rectangle, seen in one direction. -/
theorem rectangular_iff (d : Dimension) : g.Rectangular ↔ ∀ a, g.contains a = true ↔
    d.coordinate a < g.extent d ∧ d.cross.coordinate a < g.extent d.cross := by
  cases d with
  | row => rfl
  | column => exact forall_congr' fun a => by rw [and_comm]; rfl

/-- Grids with the same cells and extents are rectangles together. -/
theorem Rectangular.congr (h : g.Rectangular) (hcells : ∀ a, g'.contains a = g.contains a)
    (hrows : g'.rows = g.rows) (hcolumns : g'.columns = g.columns) : g'.Rectangular := by
  intro a
  rw [hcells, hrows, hcolumns]
  exact h a

/-- A cell that is there may be replaced. -/
theorem Rectangular.insert (h : g.Rectangular) (ha : g.contains a = true) (cell : Cell)
    (pending : AddressSet) :
    Rectangular { g with cells := g.cells.insert a cell, pending } := by
  refine h.congr (fun b => ?_) rfl rfl
  rw [contains, Std.ExtTreeMap.contains_insert]
  cases hab : compare a b == .eq with
  | false => rfl
  | true =>
    obtain rfl : a = b := Std.LawfulEqOrd.eq_of_compare (by simpa using hab)
    rw [Bool.true_or, ha]

/-- A grid with cells added to it. -/
structure Grown (g g' : Grid) : Prop where
  /-- The cells that were there are as they were. -/
  kept : ∀ a, g.contains a = true → g'.cell? a = g.cell? a
  /-- The cells that are new are blank. -/
  added : ∀ a, g.contains a = false → g'.contains a = true → g'.cell? a = some .blank
  /-- The cells that are new are pending, and so are those that were pending, but no others. -/
  pending : ∀ a, a ∈ g'.pending ↔
    a ∈ g.pending ∨ g.contains a = false ∧ g'.contains a = true

/-- A grid that grows keeps its cells. -/
theorem Grown.contains (h : Grown g g') (ha : g.contains a = true) : g'.contains a = true := by
  rw [contains_iff, h.kept a ha]
  exact contains_iff.mp ha

theorem Grown.refl (g : Grid) : Grown g g where
  kept _ _ := rfl
  added a hold hnew := by simp [hold] at hnew
  pending a := by simp

/-- Growing twice is growing. -/
theorem Grown.trans (h : Grown g g') (h' : Grown g' g'') : Grown g g'' where
  kept a ha := (h'.kept a (h.contains ha)).trans (h.kept a ha)
  added a hold hnew := by
    cases hmid : g'.contains a with
    | true => rw [h'.kept a hmid, h.added a hold hmid]
    | false => exact h'.added a hmid hnew
  pending a := by
    rw [h'.pending, h.pending]
    have hmono : g'.contains a = true → g''.contains a = true := h'.contains
    have hmono' : g.contains a = true → g'.contains a = true := h.contains
    cases hold : g.contains a <;> cases hmid : g'.contains a <;> cases hnew : g''.contains a <;>
      simp_all

/-- Setting one extent leaves the other alone. -/
theorem extent_withExtent (g : Grid) (d : Dimension) (n : Nat) :
    (g.withExtent d n).extent d = n ∧
      (g.withExtent d n).extent d.cross = g.extent d.cross := by
  cases d <;> exact ⟨rfl, rfl⟩

/-- A line raises the extent in its direction by one. -/
theorem extent_extend (g : Grid) (d : Dimension) :
    (g.extend d).extent d = g.extent d + 1 ∧
      (g.extend d).extent d.cross = g.extent d.cross := by
  obtain ⟨hextent, hcross⟩ := extent_withExtent { g with
    cells := (d.line (g.extent d) (g.extent d.cross)).foldl
      (fun cells a => cells.insert a Cell.blank) g.cells
    pending := g.pending.insertMany (d.line (g.extent d) (g.extent d.cross)) } d (g.extent d + 1)
  refine ⟨hextent, hcross.trans ?_⟩
  cases d <;> rfl

/-- The cells of a line that is added are blank, and the others are as they were. -/
theorem cell?_extend (g : Grid) (d : Dimension) (a : Address) :
    (g.extend d).cell? a =
      if a ∈ d.line (g.extent d) (g.extent d.cross) then some .blank else g.cell? a := by
  rw [extend, cell?_withExtent]
  exact getElem?_foldl_blank _ a

/-- A longer grid has the cells of the new line besides those it had. -/
theorem contains_extend : (g.extend d).contains a = true ↔
    a ∈ d.line (g.extent d) (g.extent d.cross) ∨ g.contains a = true := by
  rw [contains_iff, contains_iff, cell?_extend]
  split <;> simp_all

/-- The cells of a line that is added become pending. -/
theorem mem_pending_extend : a ∈ (g.extend d).pending ↔
    a ∈ g.pending ∨ a ∈ d.line (g.extent d) (g.extent d.cross) := by
  rw [extend, pending_withExtent]
  exact mem_insertMany_iff

/-- The cells of a line that is added were not there. -/
theorem Rectangular.not_contains_line (h : g.Rectangular)
    (ha : a ∈ d.line (g.extent d) (g.extent d.cross)) : g.contains a = false := by
  rw [← Bool.not_eq_true, (rectangular_iff d).mp h a]
  have hlast := (Dimension.mem_line_iff.mp ha).1
  omega

/-- A line adds cells to a rectangle and changes none. -/
theorem Rectangular.grown_extend (h : g.Rectangular) (d : Dimension) :
    Grown g (g.extend d) where
  kept a ha := by
    rw [cell?_extend, if_neg]
    intro hline
    simp [h.not_contains_line hline] at ha
  added a hold hnew := by
    rw [contains_extend, hold] at hnew
    rw [cell?_extend, if_pos (by simpa using hnew)]
  pending a := by
    rw [mem_pending_extend, contains_extend]
    refine or_congr_right ⟨fun hline => ⟨h.not_contains_line hline, .inl hline⟩, ?_⟩
    rintro ⟨hold, hnew⟩
    simpa [hold] using hnew

/-- A line extends the rectangle. -/
theorem Rectangular.extend (h : g.Rectangular) (d : Dimension) : (g.extend d).Rectangular := by
  rw [rectangular_iff d]
  intro a
  obtain ⟨hextent, hcross⟩ := extent_extend g d
  rw [contains_extend, Dimension.mem_line_iff, (rectangular_iff d).mp h a, hextent, hcross]
  omega

/-- Several lines raise the extent in their direction by their number. -/
theorem extent_extendBy (g : Grid) (d : Dimension) (count : Nat) :
    (g.extendBy d count).extent d = g.extent d + count ∧
      (g.extendBy d count).extent d.cross = g.extent d.cross := by
  induction count with
  | zero => exact ⟨rfl, rfl⟩
  | succ count ih =>
    obtain ⟨hextent, hcross⟩ := ih
    obtain ⟨hextent', hcross'⟩ := extent_extend (g.extendBy d count) d
    rw [hextent] at hextent'
    exact ⟨hextent', hcross'.trans hcross⟩

/-- Several lines extend the rectangle. -/
theorem Rectangular.extendBy (h : g.Rectangular) (d : Dimension) (count : Nat) :
    (g.extendBy d count).Rectangular ∧ Grown g (g.extendBy d count) := by
  induction count with
  | zero => exact ⟨h, .refl g⟩
  | succ count ih =>
    obtain ⟨hrect, hgrown⟩ := ih
    exact ⟨hrect.extend d, hgrown.trans (hrect.grown_extend d)⟩

/-- A grid grows to fit a cell if the extents that reach the cell are within the capacity. -/
theorem growToFit_eq_ok_iff : g.growToFit a = .ok g' ↔
    max g.rows (extentFor a.row) * max g.columns (extentFor a.column) ≤ capacity ∧
      g' = (g.extendBy .column (a.column + 1 - g.columns)).extendBy .row
        (a.row + 1 - (g.extendBy .column (a.column + 1 - g.columns)).rows) := by
  unfold growToFit checkSize
  split
  · rename_i hsize
    simp only [hsize, true_and]
    exact ⟨fun h => (Except.ok.inj h).symm, fun h => congrArg Except.ok h.symm⟩
  · rename_i hsize
    simp only [hsize, false_and, iff_false]
    intro h
    cases h

/-- A grid that may be grown to a cell has room for the cell's row and column. -/
theorem room_of_check
    (h : max g.rows (extentFor a.row) * max g.columns (extentFor a.column) ≤ capacity) :
    max g.rows (a.row + 1) < extentBound ∧ max g.columns (a.column + 1) < extentBound := by
  have hpos : 0 < extentFor a.row ∧ 0 < extentFor a.column := by
    simp only [extentFor, extentBound, UInt64.size]
    omega
  have hrows : max g.rows (extentFor a.row) ≤ capacity :=
    le_trans (Nat.le_mul_of_pos_right _ (by omega)) h
  have hcolumns : max g.columns (extentFor a.column) ≤ capacity :=
    le_trans (Nat.le_mul_of_pos_left _ (by omega)) h
  simp only [extentFor, extentBound, UInt64.size, capacity] at *
  omega

/-- The extents of a grid that grows to fit a cell reach the cell. -/
theorem extents_growToFit (hgrow : g.growToFit a = .ok g') :
    g'.rows = max g.rows (a.row + 1) ∧ g'.columns = max g.columns (a.column + 1) := by
  obtain ⟨_, rfl⟩ := growToFit_eq_ok_iff.mp hgrow
  obtain ⟨hwide, hsame⟩ : (g.extendBy .column (a.column + 1 - g.columns)).columns =
        g.columns + (a.column + 1 - g.columns) ∧
      (g.extendBy .column (a.column + 1 - g.columns)).rows = g.rows := extent_extendBy g .column _
  generalize g.extendBy .column (a.column + 1 - g.columns) = wide at *
  obtain ⟨hlong, hsame'⟩ : (wide.extendBy .row (a.row + 1 - wide.rows)).rows =
        wide.rows + (a.row + 1 - wide.rows) ∧
      (wide.extendBy .row (a.row + 1 - wide.rows)).columns = wide.columns :=
    extent_extendBy wide .row _
  exact ⟨by omega, by omega⟩

/-- The extents whose product is checked are those that the grid grows to. -/
theorem checked_growToFit (hgrow : g.growToFit a = .ok g') :
    g'.rows = max g.rows (extentFor a.row) ∧ g'.columns = max g.columns (extentFor a.column) := by
  obtain ⟨hrows, hcolumns⟩ := room_of_check (growToFit_eq_ok_iff.mp hgrow).1
  have hrow : extentFor a.row = a.row + 1 := Nat.min_eq_left (by omega)
  have hcolumn : extentFor a.column = a.column + 1 := Nat.min_eq_left (by omega)
  rw [hrow, hcolumn]
  exact extents_growToFit hgrow

/-- A grid that grows to fit a cell stays a rectangle, whose extents then reach the cell. -/
theorem Rectangular.growToFit (h : g.Rectangular) (hgrow : g.growToFit a = .ok g') :
    g'.Rectangular ∧ Grown g g' ∧ g'.rows = max g.rows (a.row + 1) ∧
      g'.columns = max g.columns (a.column + 1) := by
  obtain ⟨_, hg'⟩ := growToFit_eq_ok_iff.mp hgrow
  obtain ⟨hrect, hgrown⟩ := h.extendBy .column (a.column + 1 - g.columns)
  obtain ⟨hrect', hgrown'⟩ := hrect.extendBy .row
    (a.row + 1 - (g.extendBy .column (a.column + 1 - g.columns)).rows)
  exact ⟨hg' ▸ hrect', hg' ▸ hgrown.trans hgrown', extents_growToFit hgrow⟩

/-- If there is a line, the last one is removed. -/
theorem removeLine_eq_ok {last : Nat} (hlast : g.extent d = last + 1) :
    g.removeLine d = .ok ({ g with
      cells := g.cells.filter fun a _ => d.coordinate a ≠ last
      pending := g.pending.insertMany (g.addresses.filter fun a => d.coordinate a = last)
      }.withExtent d last) := by
  unfold removeLine
  split
  · omega
  · rename_i last' hlast'
    obtain rfl : last = last' := by omega
    rfl

/-- What is left when a line is removed. -/
structure Cut (d : Dimension) (g g' : Grid) : Prop where
  /-- There was a line to remove. -/
  extent : g.extent d = g'.extent d + 1
  /-- The other direction is as it was. -/
  cross : g'.extent d.cross = g.extent d.cross
  /-- The cells of the last line are gone, and the others are as they were. -/
  cell? : ∀ a, g'.cell? a = if d.coordinate a = g'.extent d then none else g.cell? a
  /-- The cells that are gone are pending, and so are those that were pending, but no others. -/
  pending : ∀ a, a ∈ g'.pending ↔
    a ∈ g.pending ∨ g.contains a = true ∧ d.coordinate a = g'.extent d

/-- Removing a line cuts off the last one. -/
theorem cut_removeLine (h : g.removeLine d = .ok g') : Cut d g g' := by
  cases hlast : g.extent d with
  | zero =>
    unfold removeLine at h
    rw [hlast] at h
    cases h
  | succ last =>
    rw [removeLine_eq_ok hlast] at h
    cases h
    obtain ⟨hextent, hcross⟩ := extent_withExtent { g with
      cells := g.cells.filter fun a _ => d.coordinate a ≠ last
      pending := g.pending.insertMany (g.addresses.filter fun a => d.coordinate a = last) } d last
    refine ⟨by rw [hextent, hlast], hcross.trans (by cases d <;> rfl), fun a => ?_, fun a => ?_⟩
    · rw [cell?_withExtent, hextent]
      refine Std.ExtTreeMap.getElem?_filter'.trans ?_
      change (g.cell? a).filter _ = _
      by_cases ha : d.coordinate a = last <;> cases g.cell? a <;> simp [ha]
    · rw [pending_withExtent, hextent]
      refine mem_insertMany_iff.trans (or_congr_right ?_)
      rw [List.mem_filter, decide_eq_true_eq, contains_iff, mem_addresses_iff]

/-- The cells that are left are those that are not on the last line. -/
theorem Cut.contains (h : Cut d g g') : g'.contains a = true ↔
    g.contains a = true ∧ d.coordinate a ≠ g'.extent d := by
  rw [contains_iff, contains_iff, h.cell?]
  split <;> simp_all

/-- A rectangle that is cut is one. -/
theorem Rectangular.cut (h : g.Rectangular) (hcut : Cut d g g') : g'.Rectangular := by
  rw [rectangular_iff d]
  intro a
  rw [hcut.contains, (rectangular_iff d).mp h a, hcut.cross, hcut.extent]
  omega

/-- The addresses of a rectangle are those below its extents. -/
theorem mem_rectangle_iff {rows columns : Nat} :
    a ∈ rectangle rows columns ↔ a.row < rows ∧ a.column < columns := by
  rcases a with ⟨row, column⟩
  simp only [rectangle, List.mem_map, List.mem_range, Address.mk.injEq]
  constructor
  · rintro ⟨i, hi, rfl, rfl⟩
    have hcolumns : 0 < columns := Nat.pos_of_mul_pos_left (Nat.zero_lt_of_lt hi)
    exact ⟨Nat.div_lt_of_lt_mul (Nat.mul_comm rows columns ▸ hi), Nat.mod_lt _ hcolumns⟩
  · rintro ⟨hrow, hcolumn⟩
    refine ⟨row * columns + column, ?_, ?_, ?_⟩
    · calc row * columns + column < row * columns + columns := by omega
        _ = (row + 1) * columns := (Nat.succ_mul row columns).symm
        _ ≤ rows * columns := Nat.mul_le_mul_right columns hrow
    · rw [Nat.mul_comm, Nat.mul_add_div (Nat.zero_lt_of_lt hcolumn),
        Nat.div_eq_of_lt hcolumn, Nat.add_zero]
    · rw [Nat.mul_add_mod_of_lt hcolumn]

/-- An empty grid is the rectangle that was asked for. -/
theorem rectangular_ofSize {rows columns : Nat} (h : ofSize rows columns = .ok g) :
    g.Rectangular ∧ g.rows = rows ∧ g.columns = columns := by
  obtain ⟨_, rfl⟩ := ofSize_eq_ok_iff.mp h
  refine ⟨fun a => ?_, rfl, rfl⟩
  rw [contains_iff, cell?, getElem?_foldl_blank, ← mem_rectangle_iff]
  split <;> simp_all

/-- Every text that is given has its place in the rectangle. -/
theorem lt_of_mem_entries {rows : List (List String)} {text : String}
    (h : (a, text) ∈ entries rows) : a.row < rows.length ∧ a.column < width rows := by
  simp only [entries, List.mem_flatMap, List.mem_map, Prod.mk.injEq] at h
  obtain ⟨⟨texts, row⟩, hrow, ⟨text, column⟩, hcolumn, rfl, rfl⟩ := h
  rw [List.mem_zipIdx_iff_getElem?] at hrow hcolumn
  have hwidth : texts.length ≤ width rows := by
    rw [width, List.foldl_max]
    have hmem : texts.length ∈ rows.map List.length :=
      List.mem_map_of_mem (List.mem_of_getElem? hrow)
    exact le_trans (List.le_max?_getD_of_mem hmem) (Nat.le_max_right _ _)
  exact ⟨(List.getElem?_eq_some_iff.mp hrow).1,
    lt_of_lt_of_le (List.getElem?_eq_some_iff.mp hcolumn).1 hwidth⟩

/-- Writing texts into cells that are there changes nothing about the rectangle. -/
theorem Rectangular.place_all (h : g.Rectangular) {entries : List (Address × String)}
    (hin : ∀ entry ∈ entries, entry.1.row < g.rows ∧ entry.1.column < g.columns) :
    (entries.foldl (fun g (a, text) => g.place a text) g).Rectangular ∧
      (entries.foldl (fun g (a, text) => g.place a text) g).rows = g.rows ∧
      (entries.foldl (fun g (a, text) => g.place a text) g).columns = g.columns := by
  induction entries generalizing g with
  | nil => exact ⟨h, rfl, rfl⟩
  | cons entry entries ih =>
    obtain ⟨hentry, hentries⟩ := List.forall_mem_cons.mp hin
    have hplace : (g.place entry.1 entry.2).Rectangular := h.insert ((h entry.1).mpr hentry) _ _
    exact ih hplace hentries

/-- A grid of rows is as long as the rows are many and as wide as the longest. -/
theorem rectangular_ofRows {rows : List (List String)} (h : ofRows rows = .ok g) :
    g.Rectangular ∧ g.rows = rows.length ∧ g.columns = width rows := by
  obtain ⟨empty, hempty, rfl⟩ := ofRows_eq_ok_iff.mp h
  obtain ⟨hrect, hrows, hcolumns⟩ := rectangular_ofSize hempty
  rw [← hrows, ← hcolumns]
  refine hrect.place_all fun entry hentry => ?_
  rw [hrows, hcolumns]
  exact lt_of_mem_entries (List.mem_filter.mp hentry).1

/-- A grid is a rectangle when it is built. -/
theorem Built.rectangular (h : g.Built) : g.Rectangular := by
  cases h with
  | ofSize rows columns h => exact (rectangular_ofSize h).1
  | ofRows rows h => exact (rectangular_ofRows h).1

/-- Writing a text keeps the rectangle. -/
theorem Rectangular.setText (h : g.Rectangular) {text : String}
    (hset : g.setText a text = .ok g') : g'.Rectangular := by
  obtain ⟨cell, hcell, rfl⟩ := setText_eq_ok_iff.mp hset
  exact h.insert (contains_iff.mpr (by rw [hcell]; rfl)) _ _

/-- A pass keeps the rectangle. -/
theorem Rectangular.recalculate (h : g.Rectangular) (targets : List Address) :
    (g.recalculate targets).Rectangular := by
  refine h.congr (fun a => ?_) rfl rfl
  rw [Bool.eq_iff_iff, contains_iff, contains_iff, cell?_recalculate, Option.isSome_map]

/-- Every operation keeps the rectangle. -/
theorem Rectangular.apply (h : g.Rectangular) {command : Command}
    (happly : g.apply command = .ok g') : g'.Rectangular := by
  cases command with
  | addLine d =>
    obtain ⟨_, rfl⟩ := addLine_eq_ok_iff.mp happly
    exact h.extend d
  | setText a text =>
    cases happly
    exact attempt_of h fun _ => h.setText
  | set name text =>
    cases happly
    refine attempt_of h fun g' hset => ?_
    obtain ⟨a, _, hset⟩ := set_eq_ok_iff.mp hset
    exact h.setText hset
  | removeLine d =>
    cases happly
    exact attempt_of h fun _ hcut => h.cut (cut_removeLine hcut)
  | growToFit a =>
    cases happly
    exact attempt_of h fun _ hgrow => (h.growToFit hgrow).1
  | takePending =>
    cases happly
    exact h
  | recalculateCell a =>
    cases happly
    exact h.recalculate [a]
  | recalculateChanged changed =>
    cases happly
    exact h.recalculate _
  | recalculatePending =>
    cases happly
    exact h.recalculate _
  | recalculateAll =>
    cases happly
    exact h.recalculate _

/-- A sequence of operations keeps the rectangle. -/
theorem Rectangular.run (h : g.Rectangular) {commands : List Command}
    (hrun : g.run commands = .ok g') : g'.Rectangular :=
  run_of h (fun _ _ _ _ hbefore happly => hbefore.apply happly) hrun

/-- No line that a sequence of operations adds takes an extent out of its sixty-four bits. -/
def NoOverflow (g : Grid) (commands : List Command) : Prop :=
  ∀ before d, before ++ [.addLine d] <+: commands →
    ∀ g', g.run before = .ok g' → g'.extent d + 1 < extentBound

/-- What a sequence of operations begins with does not overflow if the sequence does not. -/
theorem NoOverflow.of_prefix {commands before : List Command} (h : g.NoOverflow commands)
    (hbefore : before <+: commands) : g.NoOverflow before :=
  fun start d hstart => h start d (hstart.trans hbefore)

/-- Only a line that is added can overflow. -/
theorem exists_apply {command : Command}
    (hfit : ∀ d, command = .addLine d → g.extent d + 1 < extentBound) :
    ∃ g', g.apply command = .ok g' := by
  cases command with
  | addLine d => exact ⟨_, addLine_eq_ok_iff.mpr ⟨hfit d rfl, rfl⟩⟩
  | _ => exact ⟨_, rfl⟩

/-- A sequence of operations leaves a grid exactly if no line that it adds overflows. -/
theorem exists_run_iff {commands : List Command} :
    (∃ g', g.run commands = .ok g') ↔ g.NoOverflow commands := by
  constructor
  · rintro ⟨g', hrun⟩ before d hbefore between hbetween
    obtain ⟨after, hafter⟩ := exists_run_of_prefix hrun hbefore
    obtain ⟨old, hold, happly⟩ := run_concat_eq_ok_iff.mp hafter
    cases hbetween.symm.trans hold
    exact (addLine_eq_ok_iff.mp happly).1
  · intro hfits
    induction commands using List.reverseRecOn with
    | nil => exact ⟨g, rfl⟩
    | append_singleton commands command ih =>
      obtain ⟨before, hbefore⟩ := ih (hfits.of_prefix (List.prefix_append _ _))
      have hfit : ∀ d, command = .addLine d → before.extent d + 1 < extentBound :=
        fun d hd => hfits commands d (hd ▸ List.prefix_refl _) before hbefore
      obtain ⟨g', happly⟩ := exists_apply hfit
      exact ⟨g', run_concat_eq_ok_iff.mpr ⟨before, hbefore, happly⟩⟩

/-- The cells of a rectangle are listed row by row. -/
theorem Rectangular.addresses_eq (h : g.Rectangular) :
    g.addresses = (List.range g.rows).flatMap fun row =>
      (List.range g.columns).map fun column => ⟨row, column⟩ := by
  have hlisted : g.addresses.Pairwise fun a b => compare a b = .lt :=
    Std.ExtTreeMap.ordered_keys
  have hrows : ((List.range g.rows).flatMap fun row => (List.range g.columns).map fun column =>
      (⟨row, column⟩ : Address)).Pairwise fun a b => compare a b = .lt := by
    rw [List.pairwise_flatMap]
    constructor
    · intro row _
      rw [List.pairwise_map]
      refine List.pairwise_lt_range.imp fun {i j} hlt => ?_
      exact Address.compare_eq_lt_iff.mpr (.inr ⟨rfl, hlt⟩)
    · refine List.pairwise_lt_range.imp fun hlt a ha b hb => ?_
      obtain ⟨_, _, rfl⟩ := List.mem_map.mp ha
      obtain ⟨_, _, rfl⟩ := List.mem_map.mp hb
      exact Address.compare_eq_lt_iff.mpr (.inl hlt)
  have hnodup : ∀ {l : List Address}, l.Pairwise (fun a b => compare a b = .lt) → l.Nodup :=
    fun hl => hl.imp fun hlt heq => by simp [heq] at hlt
  refine List.Perm.eq_of_pairwise (fun a b _ _ hab hba => ?_) hlisted hrows
    ((List.perm_ext_iff_of_nodup (hnodup hlisted) (hnodup hrows)).mpr fun a => ?_)
  · rw [Address.compare_eq_lt_iff] at hab hba
    omega
  · rw [mem_addresses_iff, ← contains_iff, h a]
    rcases a with ⟨row, column⟩
    simp

/-- A rectangle has as many cells as the product of its extents. -/
theorem Rectangular.size_eq (h : g.Rectangular) : g.size = g.rows * g.columns := by
  rw [size, ← Std.ExtTreeMap.length_keys]
  change g.addresses.length = _
  rw [h.addresses_eq]
  simp

/-- What a change of the shape of a grid does to its cells. -/
structure Reshaped (g g' : Grid) : Prop where
  /-- The cells that stay are as they were. -/
  kept : ∀ a, g.contains a = true → g'.contains a = true → g'.cell? a = g.cell? a
  /-- The cells that are new are blank and pending. -/
  added : ∀ a, g.contains a = false → g'.contains a = true →
    g'.cell? a = some .blank ∧ a ∈ g'.pending
  /-- The cells that are gone are pending. -/
  removed : ∀ a, g.contains a = true → g'.contains a = false → a ∈ g'.pending

/-- Adding cells is a change of shape. -/
theorem Grown.reshaped (h : Grown g g') : Reshaped g g' where
  kept a ha _ := h.kept a ha
  added a hold hnew := ⟨h.added a hold hnew, (h.pending a).mpr (.inr ⟨hold, hnew⟩)⟩
  removed a hold hnew := by simp [h.contains hold] at hnew

/-- Cutting off a line is a change of shape. -/
theorem Cut.reshaped (h : Cut d g g') : Reshaped g g' where
  kept a _ hnew := by rw [h.cell?, if_neg (h.contains.mp hnew).2]
  added a hold hnew := by simp [(h.contains.mp hnew).1] at hold
  removed a hold hnew := by
    refine (h.pending a).mpr (.inr ⟨hold, ?_⟩)
    by_contra hne
    simp [h.contains.mpr ⟨hold, hne⟩] at hnew

/-- Whether an operation may add or remove cells. -/
def Command.reshapes : Command → Bool
  | .addLine _ | .removeLine _ | .growToFit _ => true
  | _ => false

/-- Operations that add and remove cells change the shape of a rectangle and nothing else. -/
theorem Rectangular.reshaped_apply (h : g.Rectangular) {command : Command}
    (hshape : command.reshapes = true) (happly : g.apply command = .ok g') : Reshaped g g' := by
  have hrefl : Reshaped g g := (Grown.refl g).reshaped
  cases command with
  | addLine d =>
    obtain ⟨_, rfl⟩ := addLine_eq_ok_iff.mp happly
    exact (h.grown_extend d).reshaped
  | removeLine d =>
    cases happly
    exact attempt_of hrefl fun _ hcut => (cut_removeLine hcut).reshaped
  | growToFit a =>
    cases happly
    exact attempt_of hrefl fun _ hgrow => (h.growToFit hgrow).2.1.reshaped
  | _ => cases hshape

/-- However a grid was built and changed, as long as no added line takes an extent out of its
sixty-four bits, there is a grid in the end, and its cells are those below its extents. They are
listed row by row, and their number is the product of the extents. Whatever changes the shape on
the way keeps the cells that stay as they were, makes new cells blank, and records the cells that
come and go as pending. -/
theorem run_rectangular (h : g.Built) {commands : List Command} (hfits : g.NoOverflow commands) :
    ∃ g', g.run commands = .ok g' ∧
      (∀ a, g'.contains a = true ↔ a.row < g'.rows ∧ a.column < g'.columns) ∧
      g'.addresses = ((List.range g'.rows).flatMap fun row =>
        (List.range g'.columns).map fun column => ⟨row, column⟩) ∧
      g'.size = g'.rows * g'.columns ∧
      ∀ before command, before ++ [command] <+: commands → command.reshapes = true →
        ∃ old new, g.run before = .ok old ∧ g.run (before ++ [command]) = .ok new ∧
          Reshaped old new := by
  obtain ⟨g', hrun⟩ := exists_run_iff.mpr hfits
  have hrect := h.rectangular.run hrun
  refine ⟨g', hrun, hrect, hrect.addresses_eq, hrect.size_eq,
    fun before command hbefore hshape => ?_⟩
  obtain ⟨new, hnew⟩ := exists_run_iff.mpr (hfits.of_prefix hbefore)
  obtain ⟨old, hold, happly⟩ := run_concat_eq_ok_iff.mp hnew
  exact ⟨old, new, hold, hnew, (h.rectangular.run hold).reshaped_apply hshape happly⟩

/-- A row with a text is removed and added again: its cell is blank and pending. -/
theorem run_rectangular_readded :
    ∃ g old g', Grid.ofRows [["1"], ["2"]] = .ok g ∧
      g.NoOverflow [.removeLine .row, .addLine .row] ∧ g.run [.removeLine .row] = .ok old ∧
      g.run [.removeLine .row, .addLine .row] = .ok g' ∧ old.addresses = [⟨0, 0⟩] ∧
      g'.addresses = [⟨0, 0⟩, ⟨1, 0⟩] ∧ Reshaped old g' := by
  obtain ⟨g, old, hg, hold, hrows, hcolumns, hlast, hlast'⟩ : ∃ g old,
      Grid.ofRows [["1"], ["2"]] = .ok g ∧ g.run [.removeLine .row] = .ok old ∧ old.rows = 1 ∧
      old.columns = 1 ∧ (old.extend .row).rows = 2 ∧ (old.extend .row).columns = 1 :=
    ⟨_, _, rfl, rfl, rfl, rfl, rfl, rfl⟩
  have hfit : old.extent .row + 1 < extentBound := by
    change old.rows + 1 < extentBound
    rw [hrows]
    decide
  have happly : old.apply (.addLine .row) = .ok (old.extend .row) :=
    addLine_eq_ok_iff.mpr ⟨hfit, rfl⟩
  have hadded : g.run ([.removeLine .row] ++ [.addLine .row]) = .ok (old.extend .row) :=
    run_concat_eq_ok_iff.mpr ⟨old, hold, happly⟩
  have hbuilt : g.Built := .ofRows [["1"], ["2"]] hg
  have hfits : g.NoOverflow [.removeLine .row, .addLine .row] := exists_run_iff.mp ⟨_, hadded⟩
  have hfits' : g.NoOverflow [.removeLine .row] := exists_run_iff.mp ⟨_, hold⟩
  obtain ⟨new, hnew, _, hlisted, _, hsteps⟩ := run_rectangular hbuilt hfits
  obtain ⟨cut, hcut, _, hlisted', _⟩ := run_rectangular hbuilt hfits'
  obtain ⟨old', new', hold', hnew', hshape⟩ := hsteps [.removeLine .row] _ (List.prefix_refl _) rfl
  obtain rfl := Except.ok.inj (hadded.symm.trans hnew)
  obtain rfl := Except.ok.inj (hadded.symm.trans hnew')
  obtain rfl := Except.ok.inj (hold.symm.trans hcut)
  obtain rfl := Except.ok.inj (hold.symm.trans hold')
  rw [hlast, hlast'] at hlisted
  rw [hrows, hcolumns] at hlisted'
  exact ⟨g, _, _, hg, hfits, hold, hadded, hlisted', hlisted, hshape⟩

end Grid

end Spreadsheet
