import Spreadsheet.Proofs.Sheet.Trail
import Spreadsheet.Sheet.Dependents

/-!
# The search for dependents is exact

The search finds the cells from which a way of mentions leads to a given cell. Whatever is found
or waits in the queue leads there; and when a cell was taken from the queue, all formulas that
mention it are found, so that nothing is missing once the queue is empty. This holds in whatever
order the formulas are listed and the given cells wait.
-/

namespace Spreadsheet.Sheet

open Relation

variable {s : Sheet} {formulas : List (Address × List Address)}
  {changed visited found : AddressSet} {queue : List Address} {a b : Address}

/-- The formulas are listed with the cells that they mention. -/
theorem mem_formulas_iff {mentioned : List Address} :
    (a, mentioned) ∈ s.formulas ↔ s.isFormula a = true ∧ mentioned = s.references a := by
  have hentry : ∀ text, (a, text) ∈ s.texts.toList ↔ s.text? a = some text := by
    intro text
    rw [Std.ExtTreeMap.mem_toList_iff_getElem?_eq_some]
    rfl
  rw [formulas, List.mem_filterMap]
  constructor
  · rintro ⟨⟨b, text⟩, hmem, hb⟩
    simp only [Option.ite_none_right_eq_some, Option.some.injEq, Prod.mk.injEq] at hb
    obtain ⟨hformula, rfl, rfl⟩ := hb
    have ht := (hentry text).mp hmem
    exact ⟨isFormula_iff.mpr ⟨text, ht, hformula⟩, (references_eq ht).symm⟩
  · rintro ⟨hformula, rfl⟩
    obtain ⟨text, ht, hf⟩ := isFormula_iff.mp hformula
    refine ⟨(a, text), (hentry text).mpr ht, ?_⟩
    simp only [if_pos hf, references_eq ht]

/-- A list of the formulas of a sheet, in any order. -/
def ListsFormulas (s : Sheet) (formulas : List (Address × List Address)) : Prop :=
  ∀ p, p ∈ formulas ↔ p ∈ s.formulas

/-- The fresh cells are the formulas that mention a cell and are not found. -/
theorem ListsFormulas.mem_fresh_iff (h : s.ListsFormulas formulas) :
    b ∈ fresh formulas found a ↔ s.Mentions b a ∧ b ∉ found := by
  have hcontains : ∀ c, found.contains c = false ↔ c ∉ found := fun c => by
    rw [Std.ExtTreeSet.mem_iff_contains, Bool.not_eq_true]
  rw [fresh, List.mem_map]
  constructor
  · rintro ⟨⟨c, mentioned⟩, hmem, rfl⟩
    obtain ⟨hp, hnew⟩ := List.mem_filter.mp hmem
    obtain ⟨_, rfl⟩ := mem_formulas_iff.mp ((h _).mp hp)
    simpa [Mentions, hcontains] using hnew
  · rintro ⟨hmentions, hnew⟩
    refine ⟨(b, s.references b), List.mem_filter.mpr ⟨(h _).mpr ?_, ?_⟩, rfl⟩
    · exact mem_formulas_iff.mpr ⟨hmentions.isFormula, rfl⟩
    · have hmentioned : a ∈ s.references b := hmentions
      simpa [hcontains] using And.intro hmentioned hnew

/-- A search under way for the cells that lead to a changed one. -/
structure Searching (s : Sheet) (changed visited found : AddressSet) (queue : List Address) :
    Prop where
  /-- What is found mentions its way to a changed cell. -/
  leads : ∀ a, a ∈ found → ∃ b, b ∈ changed ∧ TransGen s.Mentions a b
  /-- What waits is changed or mentions its way to a changed cell. -/
  waits : ∀ a ∈ queue, ∃ b, b ∈ changed ∧ ReflTransGen s.Mentions a b
  /-- What is changed or found waits until it is visited. -/
  queued : ∀ a, a ∈ changed ∨ a ∈ found → a ∈ queue ∨ a ∈ visited
  /-- What mentions a visited cell is found. -/
  closed : ∀ a, a ∈ visited → ∀ b, s.Mentions b a → b ∈ found

namespace Searching

/-- A search begins with the changed cells in the queue and nothing found. -/
theorem start (h : ∀ a, a ∈ queue ↔ a ∈ changed) : Searching s changed ∅ ∅ queue where
  leads _ ha := absurd ha Std.ExtTreeSet.not_mem_empty
  waits a ha := ⟨a, (h a).mp ha, .refl⟩
  queued a ha := .inl ((h a).mpr (ha.resolve_right Std.ExtTreeSet.not_mem_empty))
  closed _ ha := absurd ha Std.ExtTreeSet.not_mem_empty

/-- A visited cell leaves the queue. -/
theorem skip (h : Searching s changed visited found (a :: queue)) (ha : a ∈ visited) :
    Searching s changed visited found queue where
  leads := h.leads
  waits b hb := h.waits b (List.mem_cons_of_mem _ hb)
  queued b hb := by
    rcases h.queued b hb with hwait | hb
    · rcases List.mem_cons.mp hwait with rfl | hwait
      · exact .inr ha
      · exact .inl hwait
    · exact .inr hb
  closed := h.closed

/-- A cell leaves the queue and is visited, and the formulas that mention it are found. -/
theorem visit (hformulas : s.ListsFormulas formulas)
    (h : Searching s changed visited found (a :: queue)) :
    Searching s changed (visited.insert a) (found.insertMany (fresh formulas found a))
      (queue ++ fresh formulas found a) := by
  obtain ⟨c, hc, hac⟩ := h.waits a List.mem_cons_self
  have hnew : ∀ b ∈ fresh formulas found a, TransGen s.Mentions b c := fun b hb =>
    TransGen.head' (hformulas.mem_fresh_iff.mp hb).1 hac
  refine ⟨fun b hb => ?_, fun b hb => ?_, fun b hb => ?_, fun b hb d hd => ?_⟩
  · rcases mem_insertMany_iff.mp hb with hb | hb
    · exact h.leads b hb
    · exact ⟨c, hc, hnew b hb⟩
  · rcases List.mem_append.mp hb with hb | hb
    · exact h.waits b (List.mem_cons_of_mem _ hb)
    · exact ⟨c, hc, (hnew b hb).to_reflTransGen⟩
  · by_cases hfresh : b ∈ fresh formulas found a
    · exact .inl (List.mem_append_right _ hfresh)
    · have hold : b ∈ changed ∨ b ∈ found :=
        hb.imp_right fun hb => (mem_insertMany_iff.mp hb).resolve_right hfresh
      rcases h.queued b hold with hwait | hvisited
      · rcases List.mem_cons.mp hwait with rfl | hwait
        · exact .inr (mem_insert_iff.mpr (.inl rfl))
        · exact .inl (List.mem_append_left _ hwait)
      · exact .inr (mem_insert_iff.mpr (.inr hvisited))
  · rcases mem_insert_iff.mp hb with rfl | hb
    · by_cases hd' : d ∈ found
      · exact mem_insertMany_iff.mpr (.inl hd')
      · exact mem_insertMany_iff.mpr (.inr (hformulas.mem_fresh_iff.mpr ⟨hd, hd'⟩))
    · exact mem_insertMany_iff.mpr (.inl (h.closed b hb d hd))

/-- With an empty queue, the cells found are those that lead to a changed one. -/
theorem mem_iff (h : Searching s changed visited found []) :
    a ∈ found ↔ ∃ b, b ∈ changed ∧ TransGen s.Mentions a b := by
  have hdone : ∀ b, b ∈ changed ∨ b ∈ found → ∀ c, s.Mentions c b → c ∈ found :=
    fun b hb => h.closed b ((h.queued b hb).resolve_left List.not_mem_nil)
  refine ⟨h.leads a, ?_⟩
  rintro ⟨b, hb, hab⟩
  induction hab using TransGen.head_induction_on with
  | single hlast => exact hdone b (.inl hb) _ hlast
  | head hfirst _ ih => exact hdone _ (.inr ih) _ hfirst

/-- Wherever a search stands, it ends with the cells that lead to a changed one. -/
theorem mem_searchDependents_iff (hformulas : s.ListsFormulas formulas)
    (h : Searching s changed visited found queue) :
    a ∈ searchDependents formulas visited found queue ↔
      ∃ b, b ∈ changed ∧ TransGen s.Mentions a b := by
  fun_induction searchDependents formulas visited found queue with
  | case1 => exact h.mem_iff
  | case2 visited found c queue hvisited ih => exact ih (h.skip hvisited)
  | case3 visited found c queue hvisited ih => exact ih (h.visit hformulas)

end Searching

/-- The dependents of some cells are the cells that mention their way to one of them. -/
theorem mem_dependents_iff :
    a ∈ s.dependents changed ↔ ∃ b, b ∈ changed ∧ TransGen s.Mentions a b :=
  (Searching.start fun _ => Std.ExtTreeSet.mem_toList).mem_searchDependents_iff fun _ => .rfl

/-- Neither the order of the formulas nor the order in which the given cells wait matters. -/
theorem searchDependents_eq_dependents (hformulas : s.ListsFormulas formulas)
    (hqueue : ∀ a, a ∈ queue ↔ a ∈ changed) :
    searchDependents formulas ∅ ∅ queue = s.dependents changed :=
  Std.ExtTreeSet.ext_mem fun _ =>
    ((Searching.start hqueue).mem_searchDependents_iff hformulas).trans mem_dependents_iff.symm

end Spreadsheet.Sheet
