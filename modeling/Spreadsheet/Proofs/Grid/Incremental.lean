import Spreadsheet.Proofs.Grid.Command
import Spreadsheet.Proofs.Sheet.DependentSearch

/-!
# Nothing is left stale

A grid is up to date if every cell shows what it is to show unless it is pending or mentions its
way to a pending cell. Edits keep a grid up to date although they rewrite what mentions what,
for a cell that reaches no pending cell after an edit reaches the same cells with the same texts
as before it. Recalculating what is pending therefore does all that a full recalculation does.
-/

namespace Spreadsheet.Grid

open Relation

variable {g g' : Grid} {a : Address} {cell : Cell}

/-- Every cell shows what it is to show, pending cells and those that mention their way to one
apart. -/
def UpToDate (g : Grid) : Prop :=
  ∀ a cell, g.cell? a = some cell →
    (∀ b, ReflTransGen g.sheet.Mentions a b → b ∉ g.pending) →
      cell = cell.showing (g.sheet.outcome a cell.text)

/-- An edit keeps a grid up to date. -/
theorem UpToDate.edited (h : g.UpToDate) (he : Edited g g') : g'.UpToDate := by
  intro a cell hcell hclean
  have hagree : Sheet.AgreeFrom g'.sheet g.sheet a := fun b hb => by
    rw [text?_sheet, text?_sheet, he.cell? b (hclean b hb)]
  have hold : g.cell? a = some cell := by rw [← he.cell? a (hclean a .refl), hcell]
  rw [hagree.outcome]
  refine h a cell hold fun b hb hpending => ?_
  exact hclean b (hagree.mentions_iff.mp hb) (he.pending b hpending)

/-- A pass keeps a grid up to date, whatever its targets are. -/
theorem UpToDate.recalculate (h : g.UpToDate) (targets : List Address) :
    (g.recalculate targets).UpToDate := by
  intro a cell hcell hclean
  rw [sheet_recalculate] at hclean ⊢
  rw [cell?_recalculate, Option.map_eq_some_iff] at hcell
  obtain ⟨old, hold, rfl⟩ := hcell
  by_cases ha : a ∈ targets
  · simp only [if_pos ha, Cell.text_showing, Cell.showing_showing]
  · simp only [if_neg ha]
    exact h a old hold hclean

/-- The cells that are listed are those that are there. -/
theorem mem_addresses_iff : a ∈ g.addresses ↔ (g.cell? a).isSome := by
  rw [addresses, Std.ExtTreeMap.mem_keys, Std.ExtTreeMap.mem_iff_isSome_getElem?]
  rfl

/-- After a full recalculation every cell shows what it is to show. -/
theorem cell?_recalculateAll (g : Grid) (a : Address) :
    g.recalculateAll.cell? a =
      (g.cell? a).map fun cell => cell.showing (g.sheet.outcome a cell.text) := by
  refine (g.cell?_recalculate g.addresses a).trans ?_
  cases hcell : g.cell? a with
  | none => rfl
  | some cell =>
    have ha : a ∈ g.addresses := mem_addresses_iff.mpr (by rw [hcell]; rfl)
    simp only [if_pos ha]

/-- A full recalculation brings a grid up to date. -/
theorem upToDate_recalculateAll (g : Grid) : g.recalculateAll.UpToDate := by
  intro a cell hcell _
  have hsheet : g.recalculateAll.sheet = g.sheet := g.sheet_recalculate g.addresses
  rw [cell?_recalculateAll, Option.map_eq_some_iff] at hcell
  obtain ⟨old, _, rfl⟩ := hcell
  rw [hsheet]
  rfl

/-- The targets of an incremental recalculation are the cells that changed and those that mention
their way to one. -/
theorem mem_changed_union_dependents {changed : AddressSet} :
    a ∈ (changed ∪ g.sheet.dependents changed).toList ↔
      ∃ b, b ∈ changed ∧ ReflTransGen g.sheet.Mentions a b := by
  rw [Std.ExtTreeSet.mem_toList, Std.ExtTreeSet.mem_union_iff, Sheet.mem_dependents_iff]
  constructor
  · rintro (ha | ⟨b, hb, hab⟩)
    · exact ⟨a, ha, .refl⟩
    · exact ⟨b, hb, hab.to_reflTransGen⟩
  · rintro ⟨b, hb, hab⟩
    rcases reflTransGen_iff_eq_or_transGen.mp hab with rfl | hab
    · exact .inl hb
    · exact .inr ⟨b, hb, hab⟩

/-- On a grid that is up to date, recalculating what is pending recalculates everything. -/
theorem UpToDate.recalculatePending (h : g.UpToDate) :
    g.recalculatePending = g.recalculateAll := by
  refine ext_cell? (fun a => ?_) rfl rfl rfl
  -- Emptying the pending set changes neither the cells nor the sheet.
  have hpass : g.recalculatePending.cell? a = _ :=
    g.cell?_recalculate (g.pending ∪ g.sheet.dependents g.pending).toList a
  rw [cell?_recalculateAll, hpass]
  cases hcell : g.cell? a with
  | none => rfl
  | some cell =>
    rw [Option.map_some, Option.map_some]
    by_cases ha : a ∈ (g.pending ∪ g.sheet.dependents g.pending).toList
    · rw [if_pos ha]
    · rw [if_neg ha]
      refine congrArg some (h a cell hcell fun b hb hpending => ha ?_)
      exact mem_changed_union_dependents.mpr ⟨b, hpending, hb⟩

/-- An empty grid is up to date: its cells are blank and show nothing. -/
theorem upToDate_ofSize {rows columns : Nat} (h : ofSize rows columns = .ok g) : g.UpToDate := by
  obtain ⟨_, rfl⟩ := ofSize_eq_ok_iff.mp h
  intro a cell hcell _
  obtain rfl : cell = Cell.blank := by
    rw [cell?, getElem?_foldl_blank] at hcell
    split at hcell
    · exact (Option.some.inj hcell).symm
    · simp at hcell
  rfl

/-- Texts that are placed into a grid are edits. -/
theorem edited_place_all (g : Grid) (entries : List (Address × String)) :
    Edited g (entries.foldl (fun g (a, text) => g.place a text) g) := by
  induction entries generalizing g with
  | nil => exact .refl g
  | cons entry entries ih => exact (edited_insert g entry.1 (.ofText entry.2)).trans (ih _)

/-- A grid is up to date when it is built. -/
theorem Built.upToDate (h : g.Built) : g.UpToDate := by
  cases h with
  | ofSize rows columns h => exact upToDate_ofSize h
  | ofRows rows h =>
    obtain ⟨empty, hempty, rfl⟩ := ofRows_eq_ok_iff.mp h
    exact (upToDate_ofSize hempty).edited (edited_place_all empty _)

/-- Every operation but one that takes the pending cells away keeps a grid up to date. -/
theorem UpToDate.apply (h : g.UpToDate) {command : Command} (hkept : command ≠ .takePending)
    (happly : g.apply command = .ok g') : g'.UpToDate := by
  cases command with
  | addLine d => exact h.edited (edited_addLine happly)
  | takePending => exact absurd rfl hkept
  | setText a text =>
    cases happly
    exact h.edited (edited_attempt fun _ => edited_setText)
  | set name text =>
    cases happly
    exact h.edited (edited_attempt fun _ => edited_set)
  | removeLine d =>
    cases happly
    exact h.edited (edited_attempt fun _ => edited_removeLine)
  | growToFit a =>
    cases happly
    exact h.edited (edited_attempt fun _ => edited_growToFit)
  | recalculateCell a =>
    cases happly
    exact h.recalculate [a]
  | recalculateChanged changed =>
    cases happly
    exact h.recalculate _
  | recalculatePending =>
    cases happly
    rw [h.recalculatePending]
    exact g.upToDate_recalculateAll
  | recalculateAll =>
    cases happly
    exact g.upToDate_recalculateAll

/-- A grid stays up to date as long as nothing takes its pending cells away. -/
theorem UpToDate.run (h : g.UpToDate) {commands : List Command}
    (hkept : .takePending ∉ commands) (hrun : g.run commands = .ok g') : g'.UpToDate :=
  run_of h (fun _ hmem _ _ hbefore happly =>
    hbefore.apply (fun heq => hkept (heq ▸ hmem)) happly) hrun

/-- However a grid was built and changed, as long as nothing took its pending cells away,
recalculating what is pending leaves the grid as a full recalculation does. If an extent overflows
on the way, there is no grid to recalculate in either manner. -/
theorem recalculatePending_eq_recalculateAll (h : g.Built) {commands : List Command}
    (hkept : .takePending ∉ commands) :
    (g.run commands).map Grid.recalculatePending = (g.run commands).map Grid.recalculateAll := by
  cases hrun : g.run commands with
  | ok g' => exact congrArg Except.ok (h.upToDate.run hkept hrun).recalculatePending
  | error e => rfl

/-- A column of two cells that loses the cell its formula mentions. -/
theorem recalculatePending_eq_recalculateAll_removed :
    ∃ g g', Grid.ofRows [["1"], ["2"]] = .ok g ∧
      g.run [.recalculatePending, .set "A1" "=(A2)", .removeLine .row, .recalculateCell ⟨0, 0⟩] =
        .ok g' ∧
      g'.recalculatePending = g'.recalculateAll := by
  obtain ⟨g, g', hg, hrun⟩ : ∃ g g', Grid.ofRows [["1"], ["2"]] = .ok g ∧
      g.run [.recalculatePending, .set "A1" "=(A2)", .removeLine .row, .recalculateCell ⟨0, 0⟩] =
        .ok g' := ⟨_, _, rfl, rfl⟩
  have hkept : .takePending ∉ ([.recalculatePending, .set "A1" "=(A2)", .removeLine .row,
      .recalculateCell ⟨0, 0⟩] : List Command) := by simp
  have hsame := recalculatePending_eq_recalculateAll (.ofRows _ hg) hkept
  rw [hrun] at hsame
  exact ⟨g, g', hg, hrun, Except.ok.inj hsame⟩

end Spreadsheet.Grid
