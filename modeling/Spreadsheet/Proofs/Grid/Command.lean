import Spreadsheet.Proofs.Grid.Pass

/-!
# Sequences of operations on a grid

A grid is built and then changed by operations, of which some may fail and then change nothing.
A sequence of operations ends early if an extent overflows. What one operation keeps, a sequence
keeps as far as it goes. An edit makes whatever it touches pending: cells that are not pending
afterwards are as they were, and what was pending still is.
-/

namespace Spreadsheet.Grid

/-- The operations on a grid. -/
inductive Command where
  /-- Write a raw text into a cell. -/
  | setText (a : Address) (text : String)
  /-- Write a raw text into the cell with a name. -/
  | set (name text : String)
  /-- Add a line at the end. -/
  | addLine (d : Dimension)
  /-- Remove the last line. -/
  | removeLine (d : Dimension)
  /-- Add lines until a cell is there. -/
  | growToFit (a : Address)
  /-- Take the pending cells away. -/
  | takePending
  /-- Recalculate one cell. -/
  | recalculateCell (a : Address)
  /-- Recalculate some cells and those that depend on them. -/
  | recalculateChanged (changed : AddressSet)
  /-- Recalculate what the pending edits affect. -/
  | recalculatePending
  /-- Recalculate every cell. -/
  | recalculateAll

/-- The grid after an operation that may fail. -/
def attempt (g : Grid) (result : Except GridError Grid) : Grid :=
  match result with
  | .ok g' => g'
  | .error _ => g

/-- The grid after an operation, unless an extent overflows. -/
def apply (g : Grid) : Command → Except Overflow Grid
  | .setText a text => .ok (g.attempt (g.setText a text))
  | .set name text => .ok (g.attempt (g.set name text))
  | .addLine d => g.addLine d
  | .removeLine d => .ok (g.attempt (g.removeLine d))
  | .growToFit a => .ok (g.attempt (g.growToFit a))
  | .takePending => .ok g.takePending.2
  | .recalculateCell a => .ok (g.recalculateCell a)
  | .recalculateChanged changed => .ok (g.recalculateChanged changed)
  | .recalculatePending => .ok g.recalculatePending
  | .recalculateAll => .ok g.recalculateAll

/-- The grid after a sequence of operations, unless an extent overflows on the way. -/
def run (g : Grid) (commands : List Command) : Except Overflow Grid := commands.foldlM apply g

/-- A grid as it is built, empty or from rows of texts. -/
inductive Built (g : Grid) : Prop where
  | ofSize (rows columns : Nat) (h : Grid.ofSize rows columns = .ok g)
  | ofRows (rows : List (List String)) (h : Grid.ofRows rows = .ok g)

/-- An empty grid is built if its size is within the capacity. -/
theorem ofSize_eq_ok_iff {g : Grid} {rows columns : Nat} : ofSize rows columns = .ok g ↔
    rows * columns ≤ capacity ∧ g = ⟨(rectangle rows columns).foldl
      (fun cells a => cells.insert a Cell.blank) ∅, rows, columns, ∅⟩ := by
  unfold ofSize checkSize
  split
  · rename_i hsize
    simp only [hsize, true_and]
    exact ⟨fun h => (Except.ok.inj h).symm, fun h => congrArg Except.ok h.symm⟩
  · rename_i hsize
    simp only [hsize, false_and, iff_false]
    intro h
    cases h

/-- A grid of rows is built from an empty one, into which the texts are placed. -/
theorem ofRows_eq_ok_iff {g : Grid} {rows : List (List String)} : ofRows rows = .ok g ↔
    ∃ empty, ofSize rows.length (width rows) = .ok empty ∧
      g = ((entries rows).filter fun (_, text) => text ≠ "").foldl
        (fun g (a, text) => g.place a text) empty := by
  unfold ofRows
  cases ofSize rows.length (width rows) with
  | ok empty =>
    constructor
    · intro h
      exact ⟨empty, rfl, (Except.ok.inj h).symm⟩
    · rintro ⟨empty, hempty, rfl⟩
      cases hempty
      rfl
  | error e =>
    constructor
    · intro h
      cases h
    · rintro ⟨empty, hempty, _⟩
      cases hempty

/-- One operation is a sequence. -/
theorem run_singleton (g : Grid) (command : Command) : g.run [command] = g.apply command :=
  bind_pure (g.apply command)

/-- One sequence of operations after another. -/
theorem run_append (g : Grid) (before after : List Command) :
    g.run (before ++ after) = (g.run before).bind fun g' => g'.run after :=
  List.foldlM_append

/-- A sequence of operations and one more. -/
theorem run_concat (g : Grid) (commands : List Command) (command : Command) :
    g.run (commands ++ [command]) = (g.run commands).bind fun g' => g'.apply command := by
  rw [run_append]
  exact bind_congr fun (g' : Grid) => g'.run_singleton command

/-- A sequence that leaves a grid leaves one at each step. -/
theorem exists_run_of_prefix {g g' : Grid} {before commands : List Command}
    (hrun : g.run commands = .ok g') (hbefore : before <+: commands) :
    ∃ between, g.run before = .ok between := by
  obtain ⟨after, rfl⟩ := hbefore
  rw [run_append] at hrun
  cases hstart : g.run before with
  | ok between => exact ⟨between, rfl⟩
  | error e =>
    rw [hstart] at hrun
    cases hrun

/-- A sequence leaves a grid if its last operation does, on the grid that those before it leave. -/
theorem run_concat_eq_ok_iff {g g' : Grid} {commands : List Command} {command : Command} :
    g.run (commands ++ [command]) = .ok g' ↔
      ∃ before, g.run commands = .ok before ∧ before.apply command = .ok g' := by
  rw [run_concat]
  cases g.run commands with
  | ok before => exact ⟨fun h => ⟨before, rfl, h⟩, fun ⟨_, rfl, h⟩ => h⟩
  | error e =>
    constructor
    · intro h
      cases h
    · rintro ⟨_, h, _⟩
      cases h

/-- What every operation of a sequence keeps holds in the end. -/
theorem run_of {P : Grid → Prop} {g g' : Grid} {commands : List Command} (hstart : P g)
    (hstep : ∀ command ∈ commands, ∀ before after, P before → before.apply command = .ok after →
      P after) (hrun : g.run commands = .ok g') : P g' := by
  induction commands using List.reverseRecOn generalizing g' with
  | nil =>
    cases hrun
    exact hstart
  | append_singleton commands command ih =>
    obtain ⟨before, hbefore, hlast⟩ := run_concat_eq_ok_iff.mp hrun
    refine hstep command (by simp) before g' (ih (fun c hc => ?_) hbefore) hlast
    exact hstep c (List.mem_append_left _ hc)

/-- What an edit does to a grid. -/
structure Edited (g g' : Grid) : Prop where
  /-- What was pending still is. -/
  pending : ∀ a, a ∈ g.pending → a ∈ g'.pending
  /-- Cells that are not pending are as they were. -/
  cell? : ∀ a, a ∉ g'.pending → g'.cell? a = g.cell? a

variable {g g' : Grid} {a : Address} {cells : Std.ExtTreeMap Address Cell}

/-- A grid that is left alone is edited. -/
theorem Edited.refl (g : Grid) : Edited g g := ⟨fun _ h => h, fun _ _ => rfl⟩

/-- One edit after another is an edit. -/
theorem Edited.trans {g'' : Grid} (h : Edited g g') (h' : Edited g' g'') : Edited g g'' where
  pending a ha := h'.pending a (h.pending a ha)
  cell? a ha := (h'.cell? a ha).trans (h.cell? a fun hold => ha (h'.pending a hold))

/-- What holds of a grid and of the result of an operation holds when the operation is tried. -/
theorem attempt_of {P : Grid → Prop} {result : Except GridError Grid} (hold : P g)
    (hok : ∀ g', result = .ok g' → P g') : P (g.attempt result) := by
  cases result with
  | ok g' => exact hok g' rfl
  | error e => exact hold

/-- An edit that is tried is an edit, whether it fails or not. -/
theorem edited_attempt {result : Except GridError Grid}
    (h : ∀ g', result = .ok g' → Edited g g') : Edited g (g.attempt result) :=
  attempt_of (.refl g) h

/-- A cell is replaced and becomes pending. -/
theorem edited_insert (g : Grid) (a : Address) (cell : Cell) :
    Edited g { g with cells := g.cells.insert a cell, pending := g.pending.insert a } where
  pending b hb := mem_insert_iff.mpr (.inr hb)
  cell? b hb := by
    have hne : a ≠ b := fun heq => hb (mem_insert_iff.mpr (.inl heq))
    rw [cell?, Std.ExtTreeMap.getElem?_insert, if_neg fun heq => hne (Std.compare_eq_iff_eq.mp heq)]
    rfl

/-- A text can be written into a cell that is there. -/
theorem setText_eq_ok_iff {text : String} : g.setText a text = .ok g' ↔
    ∃ cell, g.cell? a = some cell ∧
      g' = { g with
        cells := g.cells.insert a { cell with text }, pending := g.pending.insert a } := by
  unfold setText
  cases g.cell? a with
  | none => simp
  | some cell => simp [eq_comm]

/-- A text can be written into the cell that a name denotes, if the cell is there. -/
theorem set_eq_ok_iff {name text : String} : g.set name text = .ok g' ↔
    ∃ a, Address.parse? name = some a ∧ g.setText a text = .ok g' := by
  unfold set
  cases Address.parse? name with
  | none => simp
  | some a => simp

/-- All that changes when a text is written is pending then. -/
theorem edited_setText {text : String} (h : g.setText a text = .ok g') : Edited g g' := by
  obtain ⟨cell, _, rfl⟩ := setText_eq_ok_iff.mp h
  exact edited_insert g a _

/-- All that changes when a text is written into a named cell is pending then. -/
theorem edited_set {name text : String} (h : g.set name text = .ok g') : Edited g g' := by
  obtain ⟨a, _, hset⟩ := set_eq_ok_iff.mp h
  exact edited_setText hset

/-- The cells after blank cells are allocated. -/
theorem getElem?_foldl_blank (added : List Address) (a : Address) :
    (added.foldl (fun cells a => cells.insert a Cell.blank) cells)[a]? =
      if a ∈ added then some Cell.blank else cells[a]? := by
  induction added generalizing cells with
  | nil => simp
  | cons b added ih =>
    rw [List.foldl_cons, ih, Std.ExtTreeMap.getElem?_insert]
    simp only [Std.compare_eq_iff_eq, List.mem_cons, eq_comm (a := b) (b := a)]
    by_cases hb : a = b <;> by_cases ha : a ∈ added <;> simp [hb, ha]

/-- An extent holds no cells. -/
theorem cell?_withExtent (g : Grid) (d : Dimension) (extent : Nat) (a : Address) :
    (g.withExtent d extent).cell? a = g.cell? a := by
  cases d <;> rfl

theorem pending_withExtent (g : Grid) (d : Dimension) (extent : Nat) :
    (g.withExtent d extent).pending = g.pending := by
  cases d <;> rfl

/-- A line is added exactly if its extent stays a word. -/
theorem addLine_eq_ok_iff {d : Dimension} :
    g.addLine d = .ok g' ↔ g.extent d + 1 < extentBound ∧ g' = g.extend d := by
  unfold addLine
  split
  · rename_i hfit
    simp [hfit, eq_comm]
  · rename_i hover
    simp [hover]

/-- All cells of a line that is added are pending then. -/
theorem edited_extend (g : Grid) (d : Dimension) : Edited g (g.extend d) := by
  unfold extend
  refine ⟨fun a ha => ?_, fun a ha => ?_⟩
  · rw [pending_withExtent]
    exact mem_insertMany_iff.mpr (.inl ha)
  · rw [pending_withExtent] at ha
    rw [cell?_withExtent]
    have hnew := fun hmem => ha (mem_insertMany_iff.mpr (.inr hmem))
    exact (getElem?_foldl_blank _ a).trans (if_neg hnew)

/-- All that changes when a line is added without overflow is pending then. -/
theorem edited_addLine {d : Dimension} (h : g.addLine d = .ok g') : Edited g g' := by
  obtain ⟨_, rfl⟩ := addLine_eq_ok_iff.mp h
  exact edited_extend g d

/-- All that changes when lines are added is pending then. -/
theorem edited_extendBy (g : Grid) (d : Dimension) (count : Nat) :
    Edited g (g.extendBy d count) := by
  induction count with
  | zero => exact .refl g
  | succ count ih => exact ih.trans (edited_extend _ d)

/-- All that changes when a line is removed is pending then. -/
theorem edited_removeLine {d : Dimension} (h : g.removeLine d = .ok g') : Edited g g' := by
  unfold removeLine at h
  split at h
  · cases h
  · rename_i last _
    cases h
    refine ⟨fun a ha => ?_, fun a ha => ?_⟩
    · rw [pending_withExtent]
      exact mem_insertMany_iff.mpr (.inl ha)
    · rw [pending_withExtent] at ha
      rw [cell?_withExtent]
      refine Std.ExtTreeMap.getElem?_filter'.trans ?_
      cases hcell : g.cells[a]? with
      | none => exact hcell.symm
      | some cell =>
        have hmem : a ∈ g.addresses := by
          rw [addresses, Std.ExtTreeMap.mem_keys, Std.ExtTreeMap.mem_iff_isSome_getElem?, hcell]
          rfl
        have hkept : d.coordinate a ≠ last := fun heq =>
          ha (mem_insertMany_iff.mpr (.inr (List.mem_filter.mpr ⟨hmem, by simp [heq]⟩)))
        rw [Option.filter_some, if_pos (by simpa using hkept)]
        exact hcell.symm

/-- All that changes when a grid grows to fit a cell is pending then. -/
theorem edited_growToFit (h : g.growToFit a = .ok g') : Edited g g' := by
  unfold growToFit checkSize at h
  split at h
  · cases h
    exact (edited_extendBy g _ _).trans (edited_extendBy _ _ _)
  · cases h

end Spreadsheet.Grid
