import Spreadsheet.Sheet.Reference

/-!
# Circular references

A depth-first search follows the references from a cell and stops at the first one that leads
back to a cell on the way to it. The answer is that way, from the first cell to the one that
was met again. Cells that were visited before are not searched a second time.
-/

namespace Spreadsheet

/-- A cell on the way of a search and the references of it that are still to be followed. -/
structure Frame where
  /-- The cell. -/
  cell : Address
  /-- Its references that are still to be followed, in order. -/
  left : List Address

/-- How much is left to follow along a trail, the cells themselves included. -/
def Frame.work (trail : List Frame) : Nat := trail.foldr (fun f work => f.left.length + 1 + work) 0

theorem Frame.work_cons (f : Frame) (trail : List Frame) :
    Frame.work (f :: trail) = f.left.length + 1 + Frame.work trail := rfl

namespace Sheet

/-- The search for a reference back onto the trail. The trail lists the innermost cell first;
`onTrail` holds its cells, and all of them are visited. -/
def searchCycle (s : Sheet) (visited onTrail : AddressSet) (trail : List Frame) :
    Option (List Address) :=
  match trail with
  | [] => none
  | ⟨c, []⟩ :: outer => searchCycle s visited (onTrail.erase c) outer
  | ⟨c, a :: left⟩ :: outer =>
    if _ha : (s.text? a).isNone then searchCycle s visited onTrail (⟨c, left⟩ :: outer)
    else if a ∈ onTrail then some ((c :: outer.map Frame.cell).reverse ++ [a])
    else if _hv : a ∈ visited then searchCycle s visited onTrail (⟨c, left⟩ :: outer)
    else searchCycle s (visited.insert a) (onTrail.insert a)
      (⟨a, s.references a⟩ :: ⟨c, left⟩ :: outer)
termination_by (s.unmarked (visited.contains ·), Frame.work trail)
decreasing_by
  · exact Prod.Lex.right _ (by simp [Frame.work_cons])
  · exact Prod.Lex.right _ (by simp [Frame.work_cons])
  · exact Prod.Lex.right _ (by simp [Frame.work_cons])
  · refine Prod.Lex.left _ _ (s.unmarked_lt (a := a) (fun b hb => ?_) ?_ ?_ ?_)
    · rw [← Std.ExtTreeSet.mem_iff_contains] at hb ⊢
      exact Std.ExtTreeSet.mem_insert.2 (.inr hb)
    · rw [Option.isSome_iff_ne_none]
      simpa using _ha
    · exact Bool.eq_false_iff.2 fun h => _hv (Std.ExtTreeSet.mem_iff_contains.2 h)
    · exact Std.ExtTreeSet.mem_insert_self

/-- The way from a cell to a reference back onto that way, if there is one. -/
def findCycle (s : Sheet) (start : Address) : Option (List Address) :=
  if (s.text? start).isNone then none
  else s.searchCycle {start} {start} [⟨start, s.references start⟩]

/-- Whether the references from a cell lead into a circle. -/
def hasCycle (s : Sheet) (start : Address) : Bool := (s.findCycle start).isSome

end Sheet

end Spreadsheet
