import Spreadsheet.Proofs.Grid.Draft

/-!
# Grids from rows of texts

A grid that is built from rows of texts is first allocated as a rectangle as wide as the widest
row, and then the texts are written into its cells row by row. A text would be lost if its cell was
not there, but every text has its place in the rectangle. So the grid holds the rows, short ones
filled up with blank cells, and they can be read back from it.
-/

namespace Spreadsheet.Grid

variable {g : Grid} {a : Address} {text : String} {rows : List (List String)}
  {entries : List (Address × String)}

/-- The text that rows give to a cell, if they reach it. -/
def given? (rows : List (List String)) (a : Address) : Option String :=
  rows[a.row]?.bind fun texts => texts[a.column]?

/-- The entries are the given texts with their addresses. -/
theorem mem_entries_iff : (a, text) ∈ Grid.entries rows ↔ given? rows a = some text := by
  rcases a with ⟨row, column⟩
  simp only [Grid.entries, given?, List.mem_flatMap, List.mem_map, Prod.mk.injEq,
    Address.mk.injEq, Prod.exists, List.mem_zipIdx_iff_getElem?, Option.bind_eq_some_iff]
  constructor
  · rintro ⟨texts, _, htexts, _, _, htext, ⟨rfl, rfl⟩, rfl⟩
    exact ⟨texts, htexts, htext⟩
  · rintro ⟨texts, htexts, htext⟩
    exact ⟨texts, row, htexts, text, column, htext, ⟨rfl, rfl⟩, rfl⟩

/-- The width of some rows is the least that holds them all. -/
theorem width_le_iff {n : Nat} : width rows ≤ n ↔ ∀ texts ∈ rows, texts.length ≤ n := by
  have hfold : ∀ (lengths : List Nat) (start : Nat),
      lengths.foldl max start ≤ n ↔ start ≤ n ∧ ∀ length ∈ lengths, length ≤ n := by
    intro lengths
    induction lengths with
    | nil => simp
    | cons length lengths ih =>
      intro start
      rw [List.foldl_cons, ih, Nat.max_le, List.forall_mem_cons, and_assoc]
  rw [width, hfold]
  simp

/-- Placing a text in a cell of a draft leaves a draft. -/
theorem Draft.place (h : g.Draft) (ha : g.contains a = true) (text : String) :
    (g.place a text).Draft where
  rectangular := h.rectangular.insert ha _ _
  le_capacity := h.le_capacity
  unshown := by
    intro b cell hb
    rw [cell?, Grid.place, Std.ExtTreeMap.getElem?_insert] at hb
    split at hb
    · rw [← Option.some.inj hb]
      rfl
    · exact h.unshown b cell hb

theorem cell?_place (g : Grid) (b : Address) (text : String) :
    (g.place b text).cell? a = if b = a then some (.ofText text) else g.cell? a := by
  rw [cell?, Grid.place, Std.ExtTreeMap.getElem?_insert]
  simp only [Std.compare_eq_iff_eq]
  rfl

/-- What a cell holds after some texts are written, if all that are written into it are one. -/
theorem cell?_place_all (h : ∀ other, (a, other) ∈ entries → other = text) :
    (entries.foldl (fun g (a, text) => g.place a text) g).cell? a =
      if (a, text) ∈ entries then some (.ofText text) else g.cell? a := by
  induction entries generalizing g with
  | nil => simp
  | cons entry entries ih =>
    obtain ⟨b, written⟩ := entry
    have hentries : ∀ other, (a, other) ∈ entries → other = text :=
      fun other hother => h other (List.mem_cons_of_mem _ hother)
    rw [List.foldl_cons, ih hentries, cell?_place]
    by_cases hb : b = a
    · subst hb
      obtain rfl := h written List.mem_cons_self
      simp
    · simp [hb, Ne.symm hb]

/-- The cells that are pending after some texts are written. -/
theorem mem_pending_place_all : a ∈ (entries.foldl (fun g (a, text) => g.place a text) g).pending ↔
    a ∈ g.pending ∨ ∃ text, (a, text) ∈ entries := by
  induction entries generalizing g with
  | nil => simp
  | cons entry entries ih =>
    obtain ⟨b, written⟩ := entry
    have hplace : a ∈ (g.place b written).pending ↔ b = a ∨ a ∈ g.pending := mem_insert_iff
    rw [List.foldl_cons, ih, hplace]
    simp only [List.mem_cons, Prod.mk.injEq, exists_or, exists_and_left, exists_eq, and_true]
    tauto

/-- Write a text into a cell if the text is not empty and the cell is there. -/
def fillCell (g : Grid) (a : Address) (text : String) : Grid :=
  if text = "" then g
  else match g.cell? a with
    | none => g
    | some cell =>
      { g with cells := g.cells.insert a { cell with text }, pending := g.pending.insert a }

/-- Write the texts of a row from left to right. -/
def fillRow (g : Grid) (row : Nat) (texts : List String) : Grid :=
  texts.zipIdx.foldl (fun g (text, column) => g.fillCell ⟨row, column⟩ text) g

/-- Write rows of texts from top to bottom. -/
def fillRows (g : Grid) (rows : List (List String)) : Grid :=
  rows.zipIdx.foldl (fun g (texts, row) => g.fillRow row texts) g

/-- Filling row by row fills entry by entry. -/
theorem fillRows_eq (g : Grid) (rows : List (List String)) :
    g.fillRows rows = (Grid.entries rows).foldl (fun g (a, text) => g.fillCell a text) g := by
  simp only [fillRows, fillRow, Grid.entries, List.foldl_flatMap, List.foldl_map]

/-- A text is not lost if its cell is there. -/
theorem Draft.fillCell_eq (h : g.Draft) (ha : g.contains a = true) (htext : text ≠ "") :
    g.fillCell a text = g.place a text := by
  obtain ⟨cell, hcell⟩ := Option.isSome_iff_exists.mp (contains_iff.mp ha)
  rw [fillCell, if_neg htext, hcell, h.unshown a cell hcell]
  rfl

/-- If the cells are there, all texts are written but the empty ones. -/
theorem Draft.foldl_fillCell (h : g.Draft) (entries : List (Address × String))
    (hin : ∀ a text, (a, text) ∈ entries → g.contains a = true) :
    entries.foldl (fun g (a, text) => g.fillCell a text) g =
      (entries.filter fun (_, text) => text ≠ "").foldl (fun g (a, text) => g.place a text) g := by
  induction entries generalizing g with
  | nil => rfl
  | cons entry entries ih =>
    obtain ⟨a, text⟩ := entry
    have ha : g.contains a = true := hin a text List.mem_cons_self
    simp only [List.foldl_cons]
    by_cases htext : text = ""
    · rw [List.filter_cons_of_neg (by simp [htext]), fillCell, if_pos htext]
      exact ih h fun b other hb => hin b other (List.mem_cons_of_mem _ hb)
    · rw [List.filter_cons_of_pos (by simp [htext]), h.fillCell_eq ha htext]
      refine ih (h.place ha text) fun b other hb => ?_
      rw [contains_iff, cell?_place]
      split
      · rfl
      · exact contains_iff.mp (hin b other (List.mem_cons_of_mem _ hb))

/-- Rows are written into a rectangle as wide as the widest of them, and no text is lost. -/
theorem ofRows_eq_fillRows (rows : List (List String)) :
    ofRows rows = (ofSize rows.length (width rows)).map fun g => g.fillRows rows := by
  unfold ofRows
  cases hempty : ofSize rows.length (width rows) with
  | error e => rfl
  | ok empty =>
    obtain ⟨hrect, hrows, hcolumns⟩ := rectangular_ofSize hempty
    have hfill := (draft_ofSize hempty).foldl_fillCell (Grid.entries rows) fun a text ha =>
      (hrect a).mpr (by rw [hrows, hcolumns]; exact lt_of_mem_entries ha)
    rw [Except.map, fillRows_eq, hfill]
    rfl

/-- Rows are refused exactly if their rectangle is beyond the capacity. -/
theorem ofRows_eq_error_iff {e : GridError} : ofRows rows = .error e ↔
    capacity < rows.length * width rows ∧ e = .tooLarge rows.length (width rows) := by
  unfold ofRows ofSize checkSize
  split
  · rename_i hsize
    exact iff_of_false (by rintro ⟨⟩) fun h => absurd h.1 (Nat.not_lt.mpr hsize)
  · rename_i hsize
    refine ⟨fun h => ⟨Nat.lt_of_not_le hsize, ?_⟩, fun h => h.2 ▸ rfl⟩
    exact (Except.error.inj h).symm

/-- A grid holds rows of texts: a cell for each place in the rectangle around them, with the text
that is given to it or none, and nothing shown; what is pending is what was written. -/
structure Holds (g : Grid) (given : List (List String)) : Prop where
  /-- There are as many rows. -/
  rows : g.rows = given.length
  /-- There are as many columns as in the widest row. -/
  columns : g.columns = width given
  /-- The cells have the texts that are given to them, and show nothing. -/
  cell? : ∀ a, g.cell? a = if a.row < given.length ∧ a.column < width given then
    some ⟨(given? given a).getD "", "", none⟩ else none
  /-- The cells with a text that is not the empty string are pending. -/
  pending : ∀ a, a ∈ g.pending ↔ ∃ text, given? given a = some text ∧ text ≠ ""

/-- A grid of blank cells shows which cells it has. -/
theorem cell?_ofSize {height width : Nat} (h : ofSize height width = .ok g) (a : Address) :
    g.cell? a = if a.row < height ∧ a.column < width then some .blank else none := by
  rw [(ofSize_eq_ok_iff.mp h).2, Grid.cell?, getElem?_foldl_blank]
  simp only [mem_rectangle_iff]
  rfl

/-- A grid that is built from rows holds them. -/
theorem holds_ofRows (h : ofRows rows = .ok g) : g.Holds rows := by
  obtain ⟨empty, hempty, hg⟩ := ofRows_eq_ok_iff.mp h
  obtain ⟨-, hrows, hcolumns⟩ := rectangular_ofRows h
  have hwritten : ∀ a text, (a, text) ∈ (Grid.entries rows).filter (fun (_, text) => text ≠ "") ↔
      given? rows a = some text ∧ text ≠ "" := fun a text => by
    simp [List.mem_filter, mem_entries_iff]
  refine ⟨hrows, hcolumns, fun a => ?_, fun a => ?_⟩
  · have hone : ∀ other, (a, other) ∈ (Grid.entries rows).filter (fun (_, text) => text ≠ "") →
        other = (given? rows a).getD "" := fun other hother => by
      rw [((hwritten a other).mp hother).1, Option.getD_some]
    rw [hg, cell?_place_all hone, cell?_ofSize hempty]
    split
    · -- a text that is written is given to a place in the rectangle
      rename_i hmem
      have hgiven := ((hwritten a _).mp hmem).1
      rw [if_pos (lt_of_mem_entries (mem_entries_iff.mpr hgiven))]
      rfl
    · rename_i hmem
      have hnone : (given? rows a).getD "" = "" := by
        cases hgiven : given? rows a with
        | none => rfl
        | some text => simpa [hwritten, hgiven, mem_entries_iff] using hmem
      rw [hnone]
      rfl
  · have hempty' : a ∉ empty.pending := by
      rw [(ofSize_eq_ok_iff.mp hempty).2]
      exact Std.ExtTreeSet.not_mem_empty
    rw [hg, mem_pending_place_all, or_iff_right hempty']
    simp only [hwritten]

/-- The texts in a row, from left to right. -/
def readRow (g : Grid) (row : Nat) : List String :=
  (List.range g.columns).filterMap fun column => g.text? ⟨row, column⟩

/-- The texts in a grid, row by row. -/
def readRows (g : Grid) : List (List String) := (List.range g.rows).map g.readRow

/-- A row is read back with empty texts behind it up to the width of the widest. -/
theorem Holds.readRow (h : g.Holds rows) {row : Nat} {texts : List String}
    (hrow : rows[row]? = some texts) :
    g.readRow row = texts ++ List.replicate (width rows - texts.length) "" := by
  have hwidth : texts.length ≤ width rows :=
    width_le_iff.mp le_rfl texts (List.mem_of_getElem? hrow)
  have htext : ∀ column ∈ List.range (width rows),
      g.text? ⟨row, column⟩ = some (texts[column]?.getD "") := by
    intro column hcolumn
    have hin : row < rows.length ∧ column < width rows :=
      ⟨(List.getElem?_eq_some_iff.mp hrow).1, List.mem_range.mp hcolumn⟩
    rw [text?, h.cell?, if_pos hin, given?, hrow, Option.bind_some, Option.map_some]
  rw [Grid.readRow, h.columns, List.filterMap_congr htext, List.filterMap_eq_map']
  refine List.ext_getElem (by simp; omega) fun column hcolumn _ => ?_
  rw [List.getElem_map, List.getElem_range, List.getElem_append]
  split
  · rename_i hin
    rw [List.getElem?_eq_getElem hin, Option.getD_some]
  · rename_i hout
    rw [List.getElem?_eq_none (Nat.le_of_not_lt hout), Option.getD_none, List.getElem_replicate]

/-- Cut to their lengths, the rows are read back. -/
theorem Holds.readRows (h : g.Holds rows) :
    List.zipWith (fun read texts => read.take texts.length) g.readRows rows = rows := by
  refine List.ext_getElem? fun row => ?_
  rw [List.getElem?_zipWith, Grid.readRows, List.getElem?_map, h.rows]
  cases hrow : rows[row]? with
  | none => simp
  | some texts =>
    have hlt : row < rows.length := (List.getElem?_eq_some_iff.mp hrow).1
    rw [List.getElem?_range hlt, Option.map_some, h.readRow hrow]
    simp

/-- Building a grid from rows of texts fails only if there are too many cells, and loses and
invents nothing: all texts are written into a rectangle that is as wide as the widest row, what
they do not reach is blank, and the rows are read back from it. -/
theorem ofRows_exact (rows : List (List String)) :
    (∀ n, width rows ≤ n ↔ ∀ texts ∈ rows, texts.length ≤ n) ∧
      (∀ e, ofRows rows = .error e ↔
        capacity < rows.length * width rows ∧ e = .tooLarge rows.length (width rows)) ∧
      ofRows rows = (ofSize rows.length (width rows)).map (fun g => g.fillRows rows) ∧
      ∀ g, ofRows rows = .ok g → g.Holds rows ∧
        List.zipWith (fun read texts => read.take texts.length) g.readRows rows = rows :=
  ⟨fun _ => width_le_iff, fun _ => ofRows_eq_error_iff, ofRows_eq_fillRows rows,
    fun _ hg => ⟨holds_ofRows hg, (holds_ofRows hg).readRows⟩⟩

/-- An empty row between others, and a text of blanks, which is not the empty string. -/
theorem ofRows_exact_ragged :
    ∃ g, ofRows [["1", "", "=(A1)"], [], [" "]] = .ok g ∧ g.Holds [["1", "", "=(A1)"], [], [" "]] ∧
      g.readRows = [["1", "", "=(A1)"], ["", "", ""], [" ", "", ""]] ∧
      g.pending.toList = [⟨0, 0⟩, ⟨0, 2⟩, ⟨2, 0⟩] := by
  obtain ⟨g, hg, hread, hpending⟩ : ∃ g, ofRows [["1", "", "=(A1)"], [], [" "]] = .ok g ∧
      g.readRows = [["1", "", "=(A1)"], ["", "", ""], [" ", "", ""]] ∧
      g.pending.toList = [⟨0, 0⟩, ⟨0, 2⟩, ⟨2, 0⟩] := ⟨_, rfl, by decide, by decide⟩
  obtain ⟨-, -, -, hexact⟩ := ofRows_exact [["1", "", "=(A1)"], [], [" "]]
  exact ⟨g, hg, (hexact g hg).1, hread, hpending⟩

end Spreadsheet.Grid
