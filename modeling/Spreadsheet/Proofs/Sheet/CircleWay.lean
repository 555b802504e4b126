import Mathlib.Algebra.BigOperators.Group.Finset.Basic
import Spreadsheet.Proofs.Sheet.CircleSearch

/-!
# The way into a circle

The search for circles taken step after step. A step follows one mention of a cell on the trail
or leaves a cell behind, and each cell is put on the trail at most once, so that the search ends
within as many steps as there are cells and mentions. Its answer is a way into a circle, and it
answers with one exactly if a circle can be reached.
-/

namespace Spreadsheet

namespace Sheet

/-- The cells of a sheet. -/
def cells (s : Sheet) : Finset Address := s.texts.keys.toFinset

theorem mem_cells {s : Sheet} {a : Address} : a ∈ s.cells ↔ (s.text? a).isSome = true := by
  rw [cells, List.mem_toFinset, Std.ExtTreeMap.mem_keys, Std.ExtTreeMap.mem_iff_isSome_getElem?]
  rfl

/-- The number of cells of a sheet and of the mentions in them. -/
def extent (s : Sheet) : Nat := ∑ a ∈ s.cells, ((s.references a).length + 1)

end Sheet

/-- A search for circles under way. -/
structure Search where
  /-- The cells that were on the trail at some time. -/
  visited : AddressSet
  /-- The cells on the trail. -/
  onTrail : AddressSet
  /-- The trail, the innermost cell first. -/
  trail : List Frame

namespace Search

variable {s : Sheet} {q q' : Search} {a : Address}

/-- What one step of a search leads to. -/
inductive Outcome where
  /-- The search has its answer. -/
  | ended (way : Option (List Address))
  /-- There is more to search. -/
  | running (q : Search)

/-- The search from a cell before its first step. -/
def start (s : Sheet) (a : Address) : Search := ⟨{a}, {a}, [⟨a, s.references a⟩]⟩

/-- One step: follow a mention of the innermost cell, or leave the cell behind if none is
left. -/
def step (s : Sheet) : Search → Outcome
  | ⟨_, _, []⟩ => .ended none
  | ⟨visited, onTrail, ⟨c, []⟩ :: outer⟩ => .running ⟨visited, onTrail.erase c, outer⟩
  | ⟨visited, onTrail, ⟨c, a :: left⟩ :: outer⟩ =>
    if (s.text? a).isNone then .running ⟨visited, onTrail, ⟨c, left⟩ :: outer⟩
    else if a ∈ onTrail then .ended (some ((c :: outer.map Frame.cell).reverse ++ [a]))
    else if a ∈ visited then .running ⟨visited, onTrail, ⟨c, left⟩ :: outer⟩
    else .running ⟨visited.insert a, onTrail.insert a,
      ⟨a, s.references a⟩ :: ⟨c, left⟩ :: outer⟩

/-- The answer of a search that ends within a number of steps. -/
def within (s : Sheet) : Nat → Search → Option (Option (List Address))
  | 0, _ => none
  | n + 1, q => match q.step s with
    | .ended way => some way
    | .running q' => within s n q'

/-- The answer of a search. -/
def answer (s : Sheet) (q : Search) : Option (List Address) :=
  s.searchCycle q.visited q.onTrail q.trail

/-- The answer of a search is the answer after its next step. -/
theorem answer_eq (s : Sheet) (q : Search) : q.answer s = match q.step s with
    | .ended way => way
    | .running q' => q'.answer s := by
  rcases q with ⟨visited, onTrail, _ | ⟨⟨c, _ | ⟨a, left⟩⟩, outer⟩⟩
  · simp only [answer, step, Sheet.searchCycle]
  · simp only [answer, step]
    rw [Sheet.searchCycle]
  · simp only [answer, step]
    rw [Sheet.searchCycle]
    split_ifs <;> rfl

/-- The cells that were not visited. -/
def unvisited (s : Sheet) (q : Search) : Finset Address := s.cells.filter (· ∉ q.visited)

/-- The steps that a search may still take. -/
def work (s : Sheet) (q : Search) : Nat :=
  Frame.work q.trail + ∑ a ∈ q.unvisited s, ((s.references a).length + 1)

/-- Putting a new cell on the trail moves its mentions from the cells that were not visited to
the trail. -/
theorem work_push {visited onTrail onTrail' : AddressSet} {trail : List Frame}
    (ha : (s.text? a).isSome = true) (hnew : a ∉ visited) :
    work s ⟨visited.insert a, onTrail', ⟨a, s.references a⟩ :: trail⟩ =
      work s ⟨visited, onTrail, trail⟩ := by
  have hmem : a ∈ unvisited s ⟨visited, onTrail, trail⟩ :=
    Finset.mem_filter.mpr ⟨Sheet.mem_cells.mpr ha, hnew⟩
  have herase : unvisited s ⟨visited.insert a, onTrail', ⟨a, s.references a⟩ :: trail⟩ =
      (unvisited s ⟨visited, onTrail, trail⟩).erase a := by
    ext b
    simp only [unvisited, Finset.mem_filter, Finset.mem_erase, mem_insert_iff]
    tauto
  have hsum := Finset.add_sum_erase _ (fun b => (s.references b).length + 1) hmem
  simp only [work, herase, Frame.work_cons] at hsum ⊢
  omega

/-- Every step that goes on is one step less to take. -/
theorem work_step (h : q.step s = .running q') : q'.work s + 1 = q.work s := by
  rcases q with ⟨visited, onTrail, _ | ⟨⟨c, _ | ⟨a, left⟩⟩, outer⟩⟩
  · cases h
  · cases h
    simp only [work, unvisited, Frame.work_cons, List.length_nil]
    omega
  · have hskip : work s ⟨visited, onTrail, ⟨c, left⟩ :: outer⟩ + 1 =
        work s ⟨visited, onTrail, ⟨c, a :: left⟩ :: outer⟩ := by
      simp only [work, unvisited, Frame.work_cons, List.length_cons]
      omega
    simp only [step] at h
    split_ifs at h with hgone hon hvisited <;> cases h
    · exact hskip
    · exact hskip
    · have ha : (s.text? a).isSome = true := by
        simpa [Option.isSome_iff_ne_none] using hgone
      rw [work_push ha hvisited]
      exact hskip

/-- A search ends within the steps that it may take, and one to end. -/
theorem within_of_work_lt {n : Nat} (h : q.work s < n) : q.within s n = some (q.answer s) := by
  induction n generalizing q with
  | zero => omega
  | succ n ih =>
    rw [within, answer_eq]
    cases hstep : q.step s with
    | ended way => rfl
    | running q' =>
      have hwork := work_step hstep
      exact ih (by omega)

/-- A search from a cell that is there has no more to do than the sheet extends. -/
theorem work_start (ha : (s.text? a).isSome = true) : (start s a).work s = s.extent := by
  have hempty : work s ⟨∅, ∅, []⟩ = s.extent := by
    simp [work, unvisited, Frame.work, Sheet.extent]
  rw [← hempty]
  exact work_push ha Std.ExtTreeSet.not_mem_empty

end Search

namespace Sheet

variable {s : Sheet} {start : Address} {way : List Address}

/-- A way that closes a circle has two cells at least. -/
theorem ClosingWay.two_le_length (h : s.ClosingWay start way) : 2 ≤ way.length := by
  obtain ⟨a, ha, _⟩ := h.closes
  have hpos := List.length_pos_of_mem ha
  rw [List.length_dropLast] at hpos
  omega

/-- The search from a cell that is there. -/
theorem findCycle_eq_answer (hthere : (s.text? start).isSome = true) :
    s.findCycle start = (Search.start s start).answer s := by
  have hgone : ¬ (s.text? start).isNone = true := by
    simpa [Option.isSome_iff_ne_none] using hthere
  rw [findCycle, if_neg hgone]
  rfl

/-- A circle is found only from a cell that is there. -/
theorem isSome_of_findCycle (h : s.findCycle start = some way) :
    (s.text? start).isSome = true := by
  by_contra hgone
  have hnone : (s.text? start).isNone = true := by simpa using hgone
  rw [findCycle, if_pos hnone] at h
  cases h

/-- The search for circles ends within one step for each cell and each mention and one more. It
answers with a way exactly if the cell is there and a circle can be reached from it. The way
begins at the cell, follows the edges, meets no cell twice before its end, and ends at a cell
that it met before. -/
theorem findCycle_decides_circular (s : Sheet) (start : Address) :
    ((s.text? start).isSome = true →
      (Search.start s start).within s (s.extent + 1) = some (s.findCycle start)) ∧
    ((s.findCycle start).isSome = true ↔ (s.text? start).isSome = true ∧ s.Circular start) ∧
    ∀ way, s.findCycle start = some way →
      2 ≤ way.length ∧ way.head? = some start ∧ way.IsChain s.Edge ∧ way.dropLast.Nodup ∧
        ∃ a ∈ way.dropLast, way.getLast? = some a := by
  refine ⟨fun hthere => ?_, ⟨fun h => ?_, fun h => hasCycle_iff.mpr h.2⟩, fun way hway => ?_⟩
  · rw [findCycle_eq_answer hthere, Search.within_of_work_lt]
    rw [Search.work_start hthere]
    exact Nat.lt_succ_self _
  · obtain ⟨way, hway⟩ := Option.isSome_iff_exists.mp h
    exact ⟨isSome_of_findCycle hway, hasCycle_iff.mp h⟩
  · have h := closingWay_of_findCycle hway
    exact ⟨h.two_le_length, h.head, h.linked, h.nodup, h.closes⟩

/-- A cell that is on no circle itself and mentions a cell that mentions itself. -/
theorem findCycle_decides_circular_behind :
    let s := Sheet.ofList [(⟨0, 0⟩, "=(B1)"), (⟨0, 1⟩, "=(B1+1)")]
    (Search.start s ⟨0, 0⟩).within s (s.extent + 1) = some (s.findCycle ⟨0, 0⟩) ∧
      ∃ way, s.findCycle ⟨0, 0⟩ = some way ∧
        2 ≤ way.length ∧ way.head? = some ⟨0, 0⟩ ∧ way.IsChain s.Edge ∧ way.dropLast.Nodup ∧
          ∃ a ∈ way.dropLast, way.getLast? = some a := by
  intro s
  have hfirst : s.text? ⟨0, 0⟩ = some "=(B1)" := by decide
  have hsecond : s.text? ⟨0, 1⟩ = some "=(B1+1)" := by decide
  have hthere : (s.text? ⟨0, 1⟩).isSome = true := by rw [hsecond]; rfl
  have hmentions : ⟨0, 1⟩ ∈ s.references ⟨0, 0⟩ := by decide +kernel
  have hmentions' : ⟨0, 1⟩ ∈ s.references ⟨0, 1⟩ := by decide +kernel
  have hedge : s.Edge ⟨0, 0⟩ ⟨0, 1⟩ := ⟨hmentions, hthere⟩
  have hloop : s.Edge ⟨0, 1⟩ ⟨0, 1⟩ := ⟨hmentions', hthere⟩
  have hcircular : s.Circular ⟨0, 0⟩ := ⟨⟨0, 1⟩, .single hedge, .single hloop⟩
  obtain ⟨hends, hdecides, hway⟩ := findCycle_decides_circular s ⟨0, 0⟩
  have hfirst' : (s.text? ⟨0, 0⟩).isSome = true := by rw [hfirst]; rfl
  obtain ⟨way, hfound⟩ := Option.isSome_iff_exists.mp (hdecides.mpr ⟨hfirst', hcircular⟩)
  exact ⟨hends hfirst', way, hfound, hway way hfound⟩

end Sheet

end Spreadsheet
