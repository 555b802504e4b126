import Spreadsheet.CommandLine.Session
import Spreadsheet.Proofs.Grid.Draft

/-!
# The order of assignments

The assignments of a command line are made one after another, and each may grow the grid first.
Whether all of them can be made depends on the smallest rectangle around the cells alone, because
every grid on the way lies inside the last one. The last grid has the extents of that rectangle,
and each of its cells the text that was written into it last. So assignments to different cells
may be made in any order: the recalculated grid is the same, and with it everything that is
printed about it.
-/

namespace Spreadsheet

namespace CommandLine

open Grid

variable {g g' : Grid} {a b : Address} {name text : String} {assignment : String × String}
  {assignments assignments' : List (String × String)}

/-- An assignment writes into a cell. -/
def WritesTo (a : Address) (assignment : String × String) : Prop :=
  Address.parse? assignment.1 = some a

instance (a : Address) : DecidablePred (WritesTo a) :=
  fun assignment => inferInstanceAs (Decidable (Address.parse? assignment.1 = some a))

/-- An assignment succeeds exactly if its name is one of a cell, the grid grows to fit it, and the
text is written into it. -/
theorem assign_eq_ok_iff : assign g (name, text) = .ok g' ↔
    ∃ a wide, WritesTo a (name, text) ∧ g.growToFit a = .ok wide ∧
      wide.setText a text = .ok g' := by
  simp only [assign, WritesTo]
  cases Address.parse? name with
  | none => simp
  | some a =>
    cases hgrow : g.growToFit a with
    | error e => simp [Except.bind, Except.mapError, hgrow]
    | ok wide => cases hset : wide.setText a text <;> simp [Except.bind, Except.mapError, *]

/-- An assignment that is made writes its text into its cell. -/
theorem written_of_assign (h : g.Draft) (hassign : assign g assignment = .ok g') :
    g'.Draft ∧ ∃ a, WritesTo a assignment ∧ g.Written a assignment.2 g' := by
  obtain ⟨a, wide, ha, hgrow, hset⟩ := assign_eq_ok_iff.mp hassign
  obtain ⟨hdraft, hwritten⟩ := h.write hgrow hset
  exact ⟨hdraft, a, ha, hwritten⟩

/-- An assignment can be made in a rectangle within the capacity. -/
theorem exists_assign (h : g.Draft) {rows columns : Nat} (hsize : rows * columns ≤ capacity)
    (hrows : g.rows ≤ rows) (hcolumns : g.columns ≤ columns) (ha : WritesTo a assignment)
    (hrow : a.row < rows) (hcolumn : a.column < columns) :
    ∃ g', assign g assignment = .ok g' := by
  obtain ⟨wide, hgrow⟩ := exists_growToFit hsize hrows hcolumns hrow hcolumn
  obtain ⟨hrect, _, hrows', hcolumns'⟩ := h.rectangular.growToFit hgrow
  have hcontains : wide.contains a = true := (hrect a).mpr ⟨by omega, by omega⟩
  obtain ⟨cell, hcell⟩ := Option.isSome_iff_exists.mp (contains_iff.mp hcontains)
  exact ⟨_, assign_eq_ok_iff.mpr ⟨a, wide, ha, hgrow, setText_eq_ok_iff.mpr ⟨cell, hcell, rfl⟩⟩⟩

/-- Some rectangle within the capacity holds the grid and the cells of all assignments. -/
def Fits (g : Grid) (assignments : List (String × String)) : Prop :=
  ∃ rows columns, rows * columns ≤ capacity ∧ g.rows ≤ rows ∧ g.columns ≤ columns ∧
    ∀ p ∈ assignments, ∃ a, WritesTo a p ∧ a.row < rows ∧ a.column < columns

/-- Assignments can be made one after another exactly if they fit. -/
theorem exists_foldlM_assign_iff (h : g.Draft) :
    (∃ g', assignments.foldlM assign g = .ok g') ↔ Fits g assignments := by
  induction assignments generalizing g with
  | nil =>
    refine iff_of_true ⟨g, rfl⟩ ⟨g.rows, g.columns, h.le_capacity, le_rfl, le_rfl, ?_⟩
    intro p hp
    cases hp
  | cons p assignments ih =>
    constructor
    · rintro ⟨g', hrun⟩
      rw [List.foldlM_cons] at hrun
      cases hassign : assign g p with
      | error e => simp [hassign, bind, Except.bind] at hrun
      | ok between =>
        rw [hassign] at hrun
        obtain ⟨hdraft, a, ha, hwritten⟩ := written_of_assign h hassign
        obtain ⟨rows, columns, hsize, hrows, hcolumns, hall⟩ := (ih hdraft).mp ⟨g', hrun⟩
        have hrow := hwritten.rows
        have hcolumn := hwritten.columns
        refine ⟨rows, columns, hsize, by omega, by omega, fun q hq => ?_⟩
        rcases List.mem_cons.mp hq with rfl | hq
        · exact ⟨a, ha, by omega, by omega⟩
        · exact hall q hq
    · rintro ⟨rows, columns, hsize, hrows, hcolumns, hall⟩
      obtain ⟨⟨a, ha, hrow, hcolumn⟩, hrest⟩ := List.forall_mem_cons.mp hall
      obtain ⟨between, hassign⟩ := exists_assign h hsize hrows hcolumns ha hrow hcolumn
      obtain ⟨hdraft, a', ha', hwritten⟩ := written_of_assign h hassign
      obtain rfl : a = a' := Option.some.inj (ha.symm.trans ha')
      have hrows' := hwritten.rows
      have hcolumns' := hwritten.columns
      obtain ⟨g', hrun⟩ := (ih hdraft).mpr
        ⟨rows, columns, hsize, by omega, by omega, hrest⟩
      refine ⟨g', ?_⟩
      rw [List.foldlM_cons, hassign]
      exact hrun

/-- The cell as some assignments leave it, each writing over those before. -/
def lastWritten (assignments : List (String × String)) (b : Address) : Option Cell :=
  (assignments.filter (WritesTo b ·)).getLast?.map fun p => .ofText p.2

/-- What a sequence of assignments does to a grid. -/
structure AllWritten (g : Grid) (assignments : List (String × String)) (g' : Grid) : Prop where
  /-- The grid is still a rectangle. -/
  rectangular : g'.Rectangular
  /-- The rows are the fewest that reach all the cells. -/
  rows : ∀ n, g'.rows ≤ n ↔ g.rows ≤ n ∧ ∀ p ∈ assignments, ∀ a, WritesTo a p → a.row < n
  /-- The columns are the fewest that reach all the cells. -/
  columns : ∀ n, g'.columns ≤ n ↔
    g.columns ≤ n ∧ ∀ p ∈ assignments, ∀ a, WritesTo a p → a.column < n
  /-- Each cell has the text that was written into it last. -/
  cell? : ∀ b, g'.contains b = true →
    g'.cell? b = some ((lastWritten assignments b).getD ((g.cell? b).getD .blank))

/-- A later assignment to a cell wins. -/
theorem lastWritten_cons (p : String × String) : lastWritten (p :: assignments) b =
    (lastWritten assignments b).or (if WritesTo b p then some (.ofText p.2) else none) := by
  rw [lastWritten, lastWritten, List.filter_cons]
  by_cases hp : WritesTo b p
  · simp only [hp, decide_true, if_true, List.getLast?_cons, Option.map_some]
    cases (assignments.filter (WritesTo b ·)).getLast? <;> rfl
  · simp [hp]

/-- After the assignments each cell holds what was last written into it. -/
theorem allWritten_of_foldlM (h : g.Draft) (hrun : assignments.foldlM assign g = .ok g') :
    AllWritten g assignments g' := by
  induction assignments generalizing g with
  | nil =>
    obtain rfl : g = g' := Except.ok.inj hrun
    refine ⟨h.rectangular, by simp, by simp, fun b hb => ?_⟩
    exact (Grown.refl g).cell?_getD hb
  | cons p assignments ih =>
    rw [List.foldlM_cons] at hrun
    cases hassign : assign g p with
    | error e => simp [hassign, bind, Except.bind] at hrun
    | ok between =>
      rw [hassign] at hrun
      obtain ⟨hdraft, a, ha, hwritten⟩ := written_of_assign h hassign
      have hrest := ih hdraft hrun
      have hunique : ∀ {a'}, WritesTo a' p ↔ a' = a := fun {a'} =>
        ⟨fun h' => Option.some.inj (h'.symm.trans ha), fun h' => h' ▸ ha⟩
      refine ⟨hrest.rectangular, fun n => ?_, fun n => ?_, fun b hb => ?_⟩
      · rw [hrest.rows, hwritten.rows, List.forall_mem_cons]
        simp only [hunique, forall_eq, Nat.max_le, Nat.succ_le_iff, and_assoc]
      · rw [hrest.columns, hwritten.columns, List.forall_mem_cons]
        simp only [hunique, forall_eq, Nat.max_le, Nat.succ_le_iff, and_assoc]
      · rw [hrest.cell? b hb, hwritten.cell?_getD h.rectangular hdraft.rectangular,
          lastWritten_cons]
        cases lastWritten assignments b with
        | some cell => rfl
        | none =>
          by_cases hba : b = a
          · simp [hba, ha]
          · simp [hba, mt hunique.mp hba]

/-- One list of assignments is the other in another order, but for each cell the assignments to
it stand in the same order. -/
structure Reordered (assignments assignments' : List (String × String)) : Prop where
  /-- The assignments are the same. -/
  perm : assignments.Perm assignments'
  /-- The assignments to one cell are in the same order. -/
  sameCell : ∀ a, assignments.filter (WritesTo a ·) = assignments'.filter (WritesTo a ·)

/-- A reordering can be undone. -/
theorem Reordered.symm (h : Reordered assignments assignments') :
    Reordered assignments' assignments :=
  ⟨h.perm.symm, fun a => (h.sameCell a).symm⟩

/-- Reordered assignments fit where the assignments did. -/
theorem Reordered.fits (h : Reordered assignments assignments') (hfits : Fits g assignments) :
    Fits g assignments' := by
  obtain ⟨rows, columns, hsize, hrows, hcolumns, hall⟩ := hfits
  exact ⟨rows, columns, hsize, hrows, hcolumns, fun p hp => hall p (h.perm.mem_iff.mpr hp)⟩

/-- Reordered assignments do the same to a grid. -/
theorem Reordered.allWritten (h : Reordered assignments assignments')
    (hwritten : AllWritten g assignments' g') : AllWritten g assignments g' := by
  have hlast : ∀ b, lastWritten assignments b = lastWritten assignments' b := fun b => by
    rw [lastWritten, lastWritten, h.sameCell b]
  refine ⟨hwritten.rectangular, fun n => ?_, fun n => ?_, fun b hb => ?_⟩
  · simp only [hwritten.rows n, h.perm.mem_iff]
  · simp only [hwritten.columns n, h.perm.mem_iff]
  · rw [hwritten.cell? b hb, hlast]

/-- What a sequence of assignments does to a grid leaves nothing open about the new grid's
extents and cells. -/
theorem AllWritten.recalculateAll_eq {g₁ g₂ : Grid} (h₁ : AllWritten g assignments g₁)
    (h₂ : AllWritten g assignments g₂) : g₁.recalculateAll = g₂.recalculateAll := by
  have hrows : g₁.rows = g₂.rows :=
    eq_of_forall_ge_iff fun n => (h₁.rows n).trans (h₂.rows n).symm
  have hcolumns : g₁.columns = g₂.columns :=
    eq_of_forall_ge_iff fun n => (h₁.columns n).trans (h₂.columns n).symm
  have hcontains : ∀ b, g₁.contains b = true ↔ g₂.contains b = true := fun b => by
    rw [h₁.rectangular b, h₂.rectangular b, hrows, hcolumns]
  refine recalculateAll_congr (fun b => ?_) hrows hcolumns
  by_cases hb : g₁.contains b = true
  · rw [h₁.cell? b hb, h₂.cell? b ((hcontains b).mp hb)]
  · have hnone : ∀ {g : Grid}, ¬g.contains b = true → g.cell? b = none := fun h => by
      rwa [contains_iff, Option.not_isSome_iff_eq_none] at h
    rw [hnone hb, hnone (mt (hcontains b).mpr hb)]

/-- Assignments that are made in one order can be made in another, and the recalculated grid is
the same. -/
theorem Reordered.exists_foldlM (h : Reordered assignments assignments') (hdraft : g.Draft)
    {g₁ : Grid} (hrun : assignments.foldlM assign g = .ok g₁) :
    ∃ g₂, assignments'.foldlM assign g = .ok g₂ ∧ g₁.recalculateAll = g₂.recalculateAll := by
  have hfits : Fits g assignments := (exists_foldlM_assign_iff hdraft).mp ⟨g₁, hrun⟩
  obtain ⟨g₂, hrun'⟩ := (exists_foldlM_assign_iff hdraft).mpr (h.fits hfits)
  have h₂ : AllWritten g assignments g₂ := h.allWritten (allWritten_of_foldlM hdraft hrun')
  exact ⟨g₂, hrun', (allWritten_of_foldlM hdraft hrun).recalculateAll_eq h₂⟩

variable {o : Options} {settings : Settings}

/-- A grid is built from blank cells, into which the assignments are made. -/
theorem build_eq_ok_iff : build o settings = .ok g' ↔
    ∃ g₀ g, ofSize (o.rows.getD settings.rows) (o.columns.getD settings.columns) = .ok g₀ ∧
      o.assignments.foldlM assign g₀ = .ok g ∧ g.recalculateAll = g' := by
  unfold build
  cases ofSize (o.rows.getD settings.rows) (o.columns.getD settings.columns) with
  | error e => simp [Except.mapError, bind, Except.bind]
  | ok g₀ =>
    cases hrun : o.assignments.foldlM assign g₀ with
    | error e => simp [Except.mapError, bind, Except.bind, hrun]
    | ok g => simp [Except.mapError, bind, Except.bind, hrun, pure, Except.pure]

/-- Reordered assignments build the same grid. -/
theorem build_reordered (h : Reordered o.assignments assignments)
    (hbuild : build o settings = .ok g) : build { o with assignments } settings = .ok g := by
  obtain ⟨g₀, g₁, hempty, hrun, rfl⟩ := build_eq_ok_iff.mp hbuild
  obtain ⟨g₂, hrun', heq⟩ := h.exists_foldlM (draft_ofSize hempty) hrun
  exact build_eq_ok_iff.mpr ⟨g₀, g₂, hempty, hrun', heq.symm⟩

/-- A run prints the same and exits with the same code when its assignments are reordered but
for those to one cell. If it fails it prints nothing in any order. -/
theorem runWith_reordered (settings : Settings) (warnings : List String)
    (h : Reordered o.assignments assignments) :
    let output := runWith o settings warnings
    let output' := runWith { o with assignments } settings warnings
    output.code = output'.code ∧ output.out = output'.out ∧
      (output.code ≠ 0 → output.out = "" ∧ output'.out = "") := by
  have hback : ∀ {g}, build { o with assignments } settings = .ok g → build o settings = .ok g :=
    fun hbuild => @build_reordered _ _ { o with assignments } settings h.symm hbuild
  simp only [runWith]
  cases hbuild : build o settings with
  | ok g => simp [build_reordered h hbuild, answer]
  | error e =>
    cases hbuild' : build { o with assignments } settings with
    | ok g => simp [hback hbuild'] at hbuild
    | error e' => simp

/-- A grid of one cell that two of the assignments grow, with two spellings of one name. -/
theorem runWith_reordered_grown :
    let o : Options :=
      { Options.empty with
        assignments := [("A1", "1"), ("B2", "=(A1)"), ("A01", "2")]
        rows := some 1
        columns := some 1 }
    let assignments := [("A1", "1"), ("A01", "2"), ("B2", "=(A1)")]
    Reordered o.assignments assignments ∧
      (runWith o Settings.standard []).out =
        (runWith { o with assignments } Settings.standard []).out := by
  intro o assignments
  have hA1 : Address.parse? "A1" = some ⟨0, 0⟩ := by decide
  have hA01 : Address.parse? "A01" = some ⟨0, 0⟩ := by decide
  have hB2 : Address.parse? "B2" = some ⟨1, 1⟩ := by decide
  have h : Reordered o.assignments assignments := by
    refine ⟨.cons _ (.swap _ _ _), fun a => ?_⟩
    simp only [o, assignments, List.filter_cons, WritesTo, hA1, hA01, hB2]
    by_cases ha : (⟨0, 0⟩ : Address) = a
    · subst ha
      simp
    · simp [ha]
  exact ⟨h, (runWith_reordered Settings.standard [] h).2.1⟩

end CommandLine

end Spreadsheet
