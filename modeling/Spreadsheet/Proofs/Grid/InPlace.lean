import Spreadsheet.Proofs.Grid.Capacity

/-!
# Operations in place

An edit that works on a grid in place writes to it step by step, and nothing takes back what it
wrote before it fails. In place, too, an edit that fails has written nothing, and one that succeeds
leaves the grid that the edit gives. A grid grows line by line until the cell that it is to fit is
allocated: the size that is checked beforehand is the size that is reached in the end, and no grid
on the way is larger, so that no extent overflows.
-/

namespace Spreadsheet.Grid

/-- A grid while an operation works on it in place. -/
structure Course where
  /-- The grid as it stands. -/
  now : Grid
  /-- The grid as it stood before each write, the last one first. -/
  past : List Grid

instance : Nonempty Course := ⟨⟨⟨∅, 0, 0, ∅⟩, []⟩⟩

/-- An operation that works on a grid in place. A failure takes no write back. An operation that
overflows, or does not come to an end, has no result. -/
abbrev InPlace := ExceptT GridError (StateT Course Option)

namespace InPlace

variable {α : Type} {g g' g'' : Grid} {c c' : Course} {d : Dimension} {a : Address}
  {op op' : InPlace Unit} {e : GridError} {P Q : Grid → Prop}

/-- The grid as it stands. -/
def look : InPlace Grid := return (← get).now

/-- Change the grid. -/
def write (change : Grid → Grid) : InPlace Unit :=
  modify fun c => ⟨change c.now, c.now :: c.past⟩

/-- Change the cells at an address, then record it as pending. -/
def touch (change : Std.ExtTreeMap Address Cell → Std.ExtTreeMap Address Cell) (a : Address) :
    InPlace Unit := do
  write fun g => { g with cells := change g.cells }
  write fun g => { g with pending := g.pending.insert a }

/-- Write a raw text into a cell. -/
def setText (a : Address) (text : String) : InPlace Unit := do
  match (← look).cell? a with
  | none => throw (.unknownCell a)
  | some cell => touch (fun cells => cells.insert a { cell with text }) a

/-- Write a raw text into the cell with a name. -/
def set (name text : String) : InPlace Unit :=
  match Address.parse? name with
  | none => throw (.invalidName name)
  | some a => setText a text

/-- Raise an extent by one, unless it overflows. -/
def raise (d : Dimension) : InPlace Unit := do
  let extent := (← look).extent d + 1
  if extent < extentBound then write fun g => g.withExtent d extent
  else liftM (none : Option Unit)

/-- Allocate the cells of a new line one after the other, then raise the extent. -/
def addLine (d : Dimension) : InPlace Unit := do
  let g ← look
  (d.line (g.extent d) (g.extent d.cross)).forM fun a =>
    touch (fun cells => cells.insert a Cell.blank) a
  raise d

/-- Remove the cells of the last line one after the other, then lower the extent. -/
def removeLine (d : Dimension) : InPlace Unit := do
  let g ← look
  match g.extent d with
  | 0 => throw (.emptyDimension d)
  | last + 1 =>
    (g.addresses.filter fun a => d.coordinate a = last).forM fun a =>
      touch (fun cells => cells.erase a) a
    write fun g => g.withExtent d last

/-- The product of two words, if it is a word. -/
def product? (m n : Nat) : Option Nat := if m * n < extentBound then some (m * n) else none

/-- Refuses a rectangle whose number of cells is no word or is too large. -/
def checkSize (rows columns : Nat) : InPlace Unit :=
  match (product? rows columns).filter (· ≤ capacity) with
  | some _ => return
  | none => throw (.tooLarge rows columns)

/-- Add lines while a coordinate lies outside. -/
def fill (d : Dimension) (coordinate : Nat) : InPlace Unit :=
  repeatM (fun _ => do
    if (← look).extent d ≤ coordinate then
      addLine d
      return .inl ()
    else return .inr ()) ()

/-- Add columns, then rows, until a cell is allocated, unless the grid would be too large. -/
def growToFit (a : Address) : InPlace Unit := do
  let g ← look
  checkSize (max g.rows (extentFor a.row)) (max g.columns (extentFor a.column))
  fill .column a.column
  fill .row a.row

/-- What becomes of an operation and of the grid that it works on. -/
def runFrom (op : InPlace α) (c : Course) : Option (Except GridError α × Course) := op.run.run c

/-- What follows an operation goes on from where it stopped. -/
theorem runFrom_bind {op : InPlace α} {x : α} (h : op.runFrom c = some (.ok x, c'))
    (next : α → InPlace Unit) : (op >>= next).runFrom c = (next x).runFrom c' := by
  change op c = _ at h
  change (op c >>= _) = _
  rw [h]
  rfl

/-- An operation succeeds on a grid and leaves another, and the grids that it writes to on the way
have a property. -/
def Reaches (P : Grid → Prop) (op : InPlace Unit) (g g' : Grid) : Prop :=
  ∀ past, ∃ between, op.runFrom ⟨g, past⟩ = some (.ok (), ⟨g', between ++ past⟩) ∧
    ∀ h ∈ between, P h

/-- An operation fails on a grid and has written nothing. -/
def Refuses (op : InPlace Unit) (g : Grid) (e : GridError) : Prop :=
  ∀ past, op.runFrom ⟨g, past⟩ = some (.error e, ⟨g, past⟩)

/-- To do nothing is to stay. -/
theorem reaches_pure : Reaches P (pure ()) g g := fun _ => ⟨[], rfl, by simp⟩

/-- A write leaves what it changes the grid to, and the grid before it on record. -/
theorem reaches_write (change : Grid → Grid) (hg : P g) :
    Reaches P (write change) g (change g) :=
  fun _ => ⟨[g], rfl, List.forall_mem_singleton.mpr hg⟩

/-- What looks at the grid goes on with the grid as it stands. -/
theorem reaches_look_bind {next : Grid → InPlace Unit} (h : Reaches P (next g) g g') :
    Reaches P (look >>= next) g g' := h

/-- What looks at the grid and then fails fails. -/
theorem refuses_look_bind {next : Grid → InPlace Unit} (h : Refuses (next g) g e) :
    Refuses (look >>= next) g e := h

/-- One success after another is a success. -/
theorem Reaches.bind (h : Reaches P op g g') (h' : Reaches P op' g' g'') :
    Reaches P (op >>= fun _ => op') g g'' := by
  intro past
  obtain ⟨between, hrun, hbetween⟩ := h past
  obtain ⟨between', hrun', hbetween'⟩ := h' (between ++ past)
  refine ⟨between' ++ between, ?_, ?_⟩
  · rw [runFrom_bind hrun, hrun', List.append_assoc]
  · exact fun h hh => (List.mem_append.mp hh).elim (hbetween' h) (hbetween h)

/-- The property of the grids on the way may be a weaker one. -/
theorem Reaches.mono (h : Reaches P op g g') (hPQ : ∀ h, P h → Q h) : Reaches Q op g g' := by
  intro past
  obtain ⟨between, hrun, hbetween⟩ := h past
  exact ⟨between, hrun, fun h hh => hPQ h (hbetween h hh)⟩

/-- An operation that works in place does what it does as a function. -/
def Performs (P : Grid → Prop) (op : InPlace Unit) (g : Grid) : Except GridError Grid → Prop
  | .ok g' => Reaches P op g g'
  | .error e => Refuses op g e

/-- An operation that does what a function does ends with the result of the function. -/
theorem Performs.runFrom {result : Except GridError Grid} (h : Performs P op g result) :
    ∃ outcome course, op.runFrom ⟨g, []⟩ = some (outcome, course) ∧
      result = outcome.map (fun _ => course.now) ∧
      (∀ e, outcome = .error e → course = ⟨g, []⟩) ∧ ∀ h ∈ course.past, P h := by
  cases result with
  | ok g' =>
    obtain ⟨between, hrun, hbetween⟩ := h []
    rw [List.append_nil] at hrun
    exact ⟨.ok (), ⟨g', between⟩, hrun, rfl, by simp, hbetween⟩
  | error e => exact ⟨.error e, ⟨g, []⟩, h [], rfl, fun _ _ => rfl, by simp⟩

/-- Grids with the extents of another one. -/
def SameExtents (g h : Grid) : Prop := ∀ d, h.extent d = g.extent d

/-- A cell is changed and becomes pending, and the extents stay. -/
theorem reaches_touch (hP : ∀ h, SameExtents g h → P h)
    (change : Std.ExtTreeMap Address Cell → Std.ExtTreeMap Address Cell) (a : Address) :
    Reaches P (touch change a) g
      { g with cells := change g.cells, pending := g.pending.insert a } :=
  (reaches_write _ (hP _ fun _ => rfl)).bind (reaches_write _ (hP _ fun _ => rfl))

/-- A loop that changes the cells at some addresses, and no extent. -/
theorem reaches_touch_forM (hP : ∀ h, SameExtents g h → P h)
    (change : Std.ExtTreeMap Address Cell → Address → Std.ExtTreeMap Address Cell)
    (addresses : List Address) :
    Reaches P (addresses.forM fun a => touch (fun cells => change cells a) a) g
      { g with
        cells := addresses.foldl change g.cells
        pending := g.pending.insertMany addresses } := by
  induction addresses generalizing g with
  | nil =>
    rw [Std.ExtTreeSet.insertMany_nil]
    exact reaches_pure
  | cons a addresses ih =>
    rw [Std.ExtTreeSet.insertMany_cons]
    exact (reaches_touch hP _ a).bind (ih hP)

/-- The cells that are left when some are erased. -/
theorem getElem?_foldl_erase (cells : Std.ExtTreeMap Address Cell) (removed : List Address)
    (a : Address) : (removed.foldl (fun cells a => cells.erase a) cells)[a]? =
      if a ∈ removed then none else cells[a]? := by
  induction removed generalizing cells with
  | nil => simp
  | cons b removed ih =>
    rw [List.foldl_cons, ih, Std.ExtTreeMap.getElem?_erase]
    simp only [Std.compare_eq_iff_eq, List.mem_cons, eq_comm (a := b) (b := a)]
    by_cases hb : a = b <;> by_cases ha : a ∈ removed <;> simp [hb, ha]

/-- Some cells are erased one after the other or filtered out at once. -/
theorem foldl_erase_eq_filter (g : Grid) (p : Address → Prop) [DecidablePred p] :
    (g.addresses.filter fun a => p a).foldl (fun cells a => cells.erase a) g.cells =
      g.cells.filter fun a _ => ¬ p a := by
  refine Std.ExtTreeMap.ext_getElem? fun a => ?_
  rw [getElem?_foldl_erase, Std.ExtTreeMap.getElem?_filter']
  simp only [List.mem_filter, mem_addresses_iff]
  change ite _ none (g.cell? a) = (g.cell? a).filter _
  by_cases ha : p a <;> cases g.cell? a <;> simp [ha, Option.filter]

/-- A text is written in place as it is by the function. -/
theorem performs_setText (a : Address) (text : String) :
    Performs (fun _ => True) (setText a text) g (g.setText a text) := by
  unfold Grid.setText
  cases hcell : g.cell? a with
  | none =>
    refine refuses_look_bind ?_
    rw [hcell]
    exact fun _ => rfl
  | some cell =>
    refine reaches_look_bind ?_
    rw [hcell]
    exact reaches_touch (fun _ _ => trivial) _ a

/-- Writing a text into a named cell keeps to its result. -/
theorem performs_set (name text : String) :
    Performs (fun _ => True) (set name text) g (g.set name text) := by
  unfold set Grid.set
  cases Address.parse? name with
  | none => exact fun _ => rfl
  | some a => exact performs_setText a text

/-- Below the top of its range an extent is raised. -/
theorem reaches_raise (hfit : g.extent d + 1 < extentBound) (hg : P g) :
    Reaches P (raise d) g (g.withExtent d (g.extent d + 1)) := by
  refine reaches_look_bind ?_
  rw [if_pos hfit]
  exact reaches_write _ hg

/-- While a line is added, the extents are as they were before. -/
theorem reaches_addLine (hfit : g.extent d + 1 < extentBound) (hP : ∀ h, SameExtents g h → P h) :
    Reaches P (addLine d) g (g.extend d) := by
  refine reaches_look_bind ((reaches_touch_forM hP (fun cells a => cells.insert a Cell.blank)
    (d.line (g.extent d) (g.extent d.cross))).bind ?_)
  exact reaches_raise hfit (hP _ fun _ => rfl)

/-- A line is removed in place as it is by the function. -/
theorem performs_removeLine (d : Dimension) :
    Performs (fun _ => True) (removeLine d) g (g.removeLine d) := by
  cases hlast : g.extent d with
  | zero =>
    have hrefused : g.removeLine d = .error (.emptyDimension d) := by
      unfold Grid.removeLine
      rw [hlast]
    rw [hrefused]
    refine refuses_look_bind ?_
    rw [hlast]
    exact fun _ => rfl
  | succ last =>
    rw [removeLine_eq_ok hlast]
    refine reaches_look_bind ?_
    rw [hlast]
    have hcells := reaches_touch_forM (g := g) (P := fun _ => True) (fun _ _ => trivial)
      (fun cells a => cells.erase a) (g.addresses.filter fun a => d.coordinate a = last)
    rw [foldl_erase_eq_filter g fun a => d.coordinate a = last] at hcells
    exact hcells.bind (reaches_write (fun g => g.withExtent d last) trivial)

/-- The check of a size asks for a product that is a word and within the capacity. -/
theorem performs_checkSize_bind {rows columns : Nat} (op : InPlace Unit)
    (result : Except GridError Grid) (h : rows * columns ≤ capacity → Performs P op g result) :
    Performs P (checkSize rows columns >>= fun _ => op) g
      (Grid.checkSize rows columns >>= fun _ => result) := by
  unfold checkSize Grid.checkSize product?
  by_cases hsize : rows * columns ≤ capacity
  · have hword : rows * columns < extentBound := by
      simp only [capacity, extentBound, UInt64.size] at *
      omega
    rw [if_pos hword, if_pos hsize, Option.filter_some, if_pos (by simpa using hsize)]
    exact h hsize
  · have hnone : (if rows * columns < extentBound then some (rows * columns) else none).filter
        (fun count => count ≤ capacity) = none := by
      split <;> simp [Option.filter, hsize]
    rw [hnone, if_neg hsize]
    exact fun _ => rfl

/-- A loop that adds lines checks the extent, adds a line if need be, and goes on. -/
theorem fill_eq (d : Dimension) (coordinate : Nat) :
    fill d coordinate = (do
      if (← look).extent d ≤ coordinate then
        addLine d
        fill d coordinate) := by
  unfold fill
  conv_lhs => rw [repeatM_eq_of_monadTail]
  unfold repeatM.body
  rw [bind_assoc]
  refine bind_congr fun g => ?_
  split
  · simp only [bind_assoc, pure_bind]
  · simp only [pure_bind]

/-- Of several lines the first may be counted apart. -/
theorem extendBy_extend (g : Grid) (d : Dimension) (count : Nat) :
    (g.extend d).extendBy d count = g.extendBy d (count + 1) := by
  induction count with
  | zero => rfl
  | succ count ih => exact congrArg (fun g => g.extend d) ih

/-- Grids whose extents do not go beyond those of another one. -/
def Inside (g h : Grid) : Prop := ∀ d, h.extent d ≤ g.extent d

/-- What lies inside a smaller grid lies inside a larger one. -/
theorem Inside.trans (h : Inside g g') (h' : Inside g' g'') : Inside g g'' :=
  fun d => (h' d).trans (h d)

/-- Lines that are added take no extent back. -/
theorem inside_extendBy (g : Grid) (d : Dimension) (count : Nat) :
    Inside (g.extendBy d count) g := by
  obtain ⟨hextent, hcross⟩ := extent_extendBy g d count
  intro d'
  obtain rfl | rfl := Dimension.eq_or_eq_cross d d' <;> omega

/-- A loop adds as many lines as it takes to reach a coordinate. -/
theorem reaches_fill {coordinate count : Nat} (hcount : coordinate + 1 - g.extent d = count)
    (hfit : g.extent d + count < extentBound) :
    Reaches (Inside (g.extendBy d count)) (fill d coordinate) g (g.extendBy d count) := by
  induction count generalizing g with
  | zero =>
    rw [fill_eq]
    refine reaches_look_bind ?_
    rw [if_neg (by omega)]
    exact reaches_pure
  | succ count ih =>
    have hextent := (extent_extend g d).1
    have hrest := ih (g := g.extend d) (by omega) (by omega)
    rw [extendBy_extend] at hrest
    rw [fill_eq]
    refine reaches_look_bind ?_
    rw [if_pos (by omega)]
    have hline := reaches_addLine (P := Inside (g.extendBy d (count + 1)))
      (show g.extent d + 1 < extentBound by omega)
      fun h hsame d' => hsame d' ▸ inside_extendBy g d (count + 1) d'
    exact hline.bind hrest

/-- Two loops add the columns and the rows that are missing, and no grid on the way goes beyond the
one that is reached. -/
theorem reaches_fill_fill (hgrow : g.growToFit a = .ok g') :
    Reaches (Inside g') (do fill .column a.column; fill .row a.row) g g' := by
  obtain ⟨hsize, rfl⟩ := growToFit_eq_ok_iff.mp hgrow
  obtain ⟨hrows, hcolumns⟩ := room_of_check hsize
  have hfit : g.columns + (a.column + 1 - g.columns) < extentBound := by omega
  have hwide : Reaches (Inside (g.extendBy .column (a.column + 1 - g.columns)))
      (fill .column a.column) g (g.extendBy .column (a.column + 1 - g.columns)) :=
    reaches_fill rfl hfit
  have hsame : (g.extendBy .column (a.column + 1 - g.columns)).rows = g.rows :=
    (extent_extendBy g .column _).2
  generalize g.extendBy .column (a.column + 1 - g.columns) = wide at *
  have hfit' : wide.rows + (a.row + 1 - wide.rows) < extentBound := by omega
  have hlong := reaches_fill (g := wide) (d := .row) rfl hfit'
  exact (hwide.mono fun h => (inside_extendBy wide .row _).trans).bind hlong

/-- The size that is checked is reached in the end, and no grid on the way goes beyond it. -/
theorem performs_growToFit (a : Address) :
    Performs (fun h => ∀ g', g.growToFit a = .ok g' → Inside g' h) (growToFit a) g
      (g.growToFit a) := by
  refine performs_checkSize_bind (do fill .column a.column; fill .row a.row)
    (.ok ((g.extendBy .column (a.column + 1 - g.columns)).extendBy .row
      (a.row + 1 - (g.extendBy .column (a.column + 1 - g.columns)).rows))) fun hsize => ?_
  have hgrow := growToFit_eq_ok_iff.mpr ⟨hsize, rfl⟩
  refine (reaches_fill_fill hgrow).mono fun h hinside g' hgrow' => ?_
  cases hgrow.symm.trans hgrow'
  exact hinside

/-- A grid that has grown in place is the one that growing gives. -/
theorem growToFit_of_runFrom (hrun : (growToFit a).runFrom ⟨g, []⟩ = some (.ok (), c)) :
    g.growToFit a = .ok c.now ∧ ∀ h ∈ c.past, Inside c.now h := by
  obtain ⟨outcome, course, hrun', hok, _, hpast⟩ := (performs_growToFit a).runFrom
  cases hrun.symm.trans hrun'
  exact ⟨hok, fun h hh => hpast h hh _ hok⟩

/-- A grid that can be grown as by the function can be grown in place. -/
theorem exists_runFrom_growToFit (hgrow : g.growToFit a = .ok g') :
    ∃ course, (growToFit a).runFrom ⟨g, []⟩ = some (.ok (), course) := by
  obtain ⟨outcome, course, hrun, hok, _⟩ := (performs_growToFit a).runFrom
  rw [hgrow] at hok
  cases outcome with
  | ok _ => exact ⟨course, hrun⟩
  | error e => cases hok

end InPlace

/-- The edits that may fail. -/
inductive Edit where
  /-- Write a raw text into a cell. -/
  | setText (a : Address) (text : String)
  /-- Write a raw text into the cell with a name. -/
  | set (name text : String)
  /-- Remove the last line. -/
  | removeLine (d : Dimension)
  /-- Add lines until a cell is there. -/
  | growToFit (a : Address)

/-- An edit as it works in place. -/
def Edit.inPlace : Edit → InPlace Unit
  | .setText a text => InPlace.setText a text
  | .set name text => InPlace.set name text
  | .removeLine d => InPlace.removeLine d
  | .growToFit a => InPlace.growToFit a

/-- The result of an edit. -/
def Edit.result (g : Grid) : Edit → Except GridError Grid
  | .setText a text => g.setText a text
  | .set name text => g.set name text
  | .removeLine d => g.removeLine d
  | .growToFit a => g.growToFit a

variable {g g' : Grid} {d : Dimension} {a : Address}

/-- Every edit works in place as its function does. -/
theorem Edit.performs (g : Grid) (e : Edit) :
    ∃ P, InPlace.Performs P e.inPlace g (e.result g) := by
  cases e with
  | setText a text => exact ⟨_, InPlace.performs_setText a text⟩
  | set name text => exact ⟨_, InPlace.performs_set name text⟩
  | removeLine d => exact ⟨_, InPlace.performs_removeLine d⟩
  | growToFit a => exact ⟨_, InPlace.performs_growToFit a⟩

/-- A grid that operations leave. -/
inductive Reachable : Grid → Prop
  | built {g : Grid} (h : g.Built) : Reachable g
  | apply {g g' : Grid} (h : Reachable g) (command : Command) (happly : g.apply command = .ok g') :
    Reachable g'

/-- A grid that operations leave is a rectangle. -/
theorem Reachable.rectangular (h : g.Reachable) : g.Rectangular := by
  induction h with
  | built h => exact h.rectangular
  | apply _ _ happly ih => exact ih.apply happly

/-- An edit that fails in place has written nothing, and one that succeeds leaves its result. A
grid can be grown to fit a cell exactly if its extents, raised to reach the cell, are within the
capacity. Then these are the extents in the end, no grid on the way goes beyond them, the cell is
there, and the cells that were there are as they were. The cells that are new are blank, and they
are what becomes pending. -/
theorem edits_atomic_and_growth_exact (g : Grid) :
    (∀ e : Edit, ∃ outcome course, e.inPlace.runFrom ⟨g, []⟩ = some (outcome, course) ∧
      e.result g = outcome.map (fun _ => course.now) ∧
      ∀ error, outcome = .error error → course = ⟨g, []⟩) ∧
    (∀ a, (∃ course, (InPlace.growToFit a).runFrom ⟨g, []⟩ = some (.ok (), course)) ↔
      max g.rows (extentFor a.row) * max g.columns (extentFor a.column) ≤ capacity) ∧
    ∀ a course, (InPlace.growToFit a).runFrom ⟨g, []⟩ = some (.ok (), course) →
      course.now.rows = max g.rows (extentFor a.row) ∧
      course.now.columns = max g.columns (extentFor a.column) ∧
      (∀ h ∈ course.past, h.rows ≤ course.now.rows ∧ h.columns ≤ course.now.columns) ∧
      (g.Reachable → course.now.contains a = true ∧ Grown g course.now) := by
  refine ⟨fun e => ?_, fun a => ⟨?_, fun hsize => ?_⟩, fun a course hrun => ?_⟩
  · obtain ⟨P, hperforms⟩ := e.performs g
    obtain ⟨outcome, course, hrun, hresult, hfailed, _⟩ := hperforms.runFrom
    exact ⟨outcome, course, hrun, hresult, hfailed⟩
  · rintro ⟨course, hrun⟩
    exact (growToFit_eq_ok_iff.mp (InPlace.growToFit_of_runFrom hrun).1).1
  · exact InPlace.exists_runFrom_growToFit (growToFit_eq_ok_iff.mpr ⟨hsize, rfl⟩)
  · obtain ⟨hgrow, hpast⟩ := InPlace.growToFit_of_runFrom hrun
    obtain ⟨hrows, hcolumns⟩ := checked_growToFit hgrow
    refine ⟨hrows, hcolumns, fun h hh => ⟨hpast h hh .row, hpast h hh .column⟩, fun hg => ?_⟩
    obtain ⟨hrect, hgrown, hrows', hcolumns'⟩ := hg.rectangular.growToFit hgrow
    exact ⟨(hrect a).mpr ⟨by omega, by omega⟩, hgrown⟩

/-- A grid of one cell grows to fit a cell in its fourth row and third column, and is not grown
to the last row and column of all. -/
theorem edits_atomic_and_growth_exact_single :
    ∃ g, Grid.ofSize 1 1 = .ok g ∧
      (∃ course, (InPlace.growToFit ⟨3, 2⟩).runFrom ⟨g, []⟩ = some (.ok (), course) ∧
        course.now.rows = 4 ∧ course.now.columns = 3 ∧ course.now.contains ⟨3, 2⟩ = true) ∧
      (InPlace.growToFit ⟨extentBound - 1, extentBound - 1⟩).runFrom ⟨g, []⟩ =
        some (.error (.tooLarge (extentBound - 1) (extentBound - 1)), ⟨g, []⟩) := by
  obtain ⟨g, hg, hrows, hcolumns⟩ : ∃ g, Grid.ofSize 1 1 = .ok g ∧ g.rows = 1 ∧ g.columns = 1 :=
    ⟨_, ofSize_eq_ok_iff.mpr ⟨by decide, rfl⟩, rfl, rfl⟩
  obtain ⟨hatomic, hgrows, hgrown⟩ := edits_atomic_and_growth_exact g
  refine ⟨g, hg, ?_, ?_⟩
  · obtain ⟨course, hrun⟩ := (hgrows ⟨3, 2⟩).mpr (by rw [hrows, hcolumns]; decide)
    obtain ⟨hrows', hcolumns', _, hframe⟩ := hgrown _ course hrun
    rw [hrows] at hrows'
    rw [hcolumns] at hcolumns'
    exact ⟨course, hrun, hrows', hcolumns', (hframe (.built (.ofSize 1 1 hg))).1⟩
  · have hrefused : (Edit.growToFit ⟨extentBound - 1, extentBound - 1⟩).result g =
        .error (.tooLarge (extentBound - 1) (extentBound - 1)) := by
      change Grid.growToFit g _ = _
      unfold Grid.growToFit
      rw [hrows, hcolumns]
      rfl
    obtain ⟨outcome, course, hrun, hresult, hfailed⟩ := hatomic (.growToFit _)
    rw [hrefused] at hresult
    cases outcome with
    | ok _ => cases hresult
    | error e =>
      cases hresult
      obtain rfl := hfailed _ rfl
      exact hrun

end Spreadsheet.Grid
