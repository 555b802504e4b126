import Spreadsheet.Sheet.Reference

/-!
# Dependents

A formula depends on the cells it mentions and on whatever those depend on. The search for the
dependents of some cells works through a queue; a formula is found once, when the first cell
that it mentions is taken from the queue, and then waits in the queue itself. A given cell that
is found as well waits twice, and is passed over the second time.
-/

namespace Spreadsheet.Sheet

/-- The formula cells of a sheet with the cells they mention. -/
def formulas (s : Sheet) : List (Address × List Address) :=
  s.texts.toList.filterMap fun (a, text) =>
    if (Content.ofText text).isFormula then some (a, Formula.references text) else none

/-- The formulas that mention a cell and are not found yet. -/
def fresh (formulas : List (Address × List Address)) (found : AddressSet) (a : Address) :
    List Address :=
  (formulas.filter fun (b, mentioned) => mentioned.contains a && !found.contains b).map (·.1)

/-- Finding fresh cells leaves fewer to be found. -/
private theorem countP_unfound_lt {formulas : List (Address × List Address)} {found : AddressSet}
    {a b : Address} {rest : List Address} (h : fresh formulas found a = b :: rest) :
    formulas.countP (fun p => !(found.insertMany (fresh formulas found a)).contains p.1) <
      formulas.countP (fun p => !found.contains p.1) := by
  have hb : b ∈ fresh formulas found a := by simp [h]
  obtain ⟨p, hp, hpb⟩ := List.mem_map.1 hb
  obtain ⟨hmem, hp⟩ := List.mem_filter.1 hp
  simp only [Bool.and_eq_true, Bool.not_eq_true'] at hp
  refine countP_lt_countP (a := p) (fun q hq => ?_) hmem (by simp [hp.2]) ?_
  · cases hf : found.contains q.1 with
    | false => rfl
    | true =>
      rw [← Std.ExtTreeSet.mem_iff_contains] at hf
      have hold := Std.ExtTreeSet.mem_iff_contains.1
        (Std.ExtTreeSet.mem_insertMany_list (l := fresh formulas found a).2 (.inl hf))
      simp [hold] at hq
  · have hnew := Std.ExtTreeSet.mem_iff_contains.1
      (Std.ExtTreeSet.mem_insertMany_list (t := found) (l := fresh formulas found a) (k := p.1).2
        (.inr (by simpa [hpb] using hb)))
    rw [hnew]
    rfl

/-- The formulas found, and those that depend on a cell in the queue. Visited cells were taken
from the queue before. -/
def searchDependents (formulas : List (Address × List Address)) (visited found : AddressSet)
    (queue : List Address) : AddressSet :=
  match queue with
  | [] => found
  | a :: queue =>
    if a ∈ visited then searchDependents formulas visited found queue
    else searchDependents formulas (visited.insert a)
      (found.insertMany (fresh formulas found a)) (queue ++ fresh formulas found a)
termination_by (formulas.countP (fun p => !found.contains p.1), queue.length)
decreasing_by
  · exact Prod.Lex.right _ (by simp)
  · cases h : fresh formulas found a with
    | nil => exact Prod.Lex.right' _ (by simp) (by simp)
    | cons b rest =>
      have := countP_unfound_lt h
      rw [h] at this
      exact Prod.Lex.left _ _ this

/-- The formula cells that depend on one of the given cells, directly or not. A given cell is
among them only if it depends on a given cell itself. -/
def dependents (s : Sheet) (changed : AddressSet) : AddressSet :=
  searchDependents s.formulas ∅ ∅ changed.toList

end Spreadsheet.Sheet
