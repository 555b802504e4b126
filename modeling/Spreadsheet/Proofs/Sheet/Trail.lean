import Mathlib.Data.List.Chain
import Spreadsheet.Proofs.Sheet.Graph
import Spreadsheet.Sheet.Cycle

/-!
# Trails

Both the search for circles and the resolution of a cell walk the graph of references along a
trail of frames, the innermost first. A trail is sound if each frame was reached by a reference
of the frame around it and no cell stands on it twice. The steps of the two walks keep it sound.
-/

namespace Spreadsheet

open Relation

/-- The members of a set after an insertion. -/
theorem mem_insert_iff {t : AddressSet} {a b : Address} : b ∈ t.insert a ↔ a = b ∨ b ∈ t := by
  rw [Std.ExtTreeSet.mem_insert, Std.compare_eq_iff_eq]

/-- The members of a set after a removal. -/
theorem mem_erase_iff {t : AddressSet} {a b : Address} : b ∈ t.erase a ↔ a ≠ b ∧ b ∈ t := by
  rw [Std.ExtTreeSet.mem_erase, ne_eq, Std.compare_eq_iff_eq]

theorem mem_single_iff {a b : Address} : b ∈ ({a} : AddressSet) ↔ a = b := by
  change b ∈ (∅ : AddressSet).insert a ↔ a = b
  rw [mem_insert_iff, or_iff_left Std.ExtTreeSet.not_mem_empty]

theorem mem_insertMany_iff {t : AddressSet} {l : List Address} {a : Address} :
    a ∈ t.insertMany l ↔ a ∈ t ∨ a ∈ l := by
  rw [Std.ExtTreeSet.mem_insertMany_list, List.contains_iff_mem]

/-- A trail of frames, the innermost first, whose cells are exactly the marked ones. -/
structure Trail (s : Sheet) (marked : AddressSet) (frames : List Frame) : Prop where
  /-- The marked cells are those on the trail. -/
  mem_iff : ∀ a, a ∈ marked ↔ a ∈ frames.map Frame.cell
  /-- No cell stands on the trail twice. -/
  nodup : (frames.map Frame.cell).Nodup
  /-- Each frame was reached by a reference of the frame around it. -/
  linked : frames.IsChain fun inner outer => s.Edge outer.cell inner.cell
  /-- What is left to follow are references of the frame's cell. -/
  left : ∀ f ∈ frames, ∀ a ∈ f.left, s.Mentions f.cell a

namespace Trail

variable {s : Sheet} {marked : AddressSet} {c a : Address} {left : List Address}
  {outer : List Frame}

/-- A walk starts with all references of its cell left to follow. -/
theorem start (a : Address) : Trail s {a} [⟨a, s.references a⟩] where
  mem_iff b := by
    rw [mem_single_iff, List.map_singleton, List.mem_singleton]
    exact eq_comm
  nodup := by simp
  linked := List.isChain_singleton _
  left f hf b hb := by
    rw [List.mem_singleton.mp hf] at hb ⊢
    exact hb

/-- A reference is passed over. -/
theorem skip (h : Trail s marked (⟨c, a :: left⟩ :: outer)) :
    Trail s marked (⟨c, left⟩ :: outer) where
  mem_iff := h.mem_iff
  nodup := h.nodup
  linked := by
    refine List.IsChain.imp_head ?_ h.linked
    exact fun hedge => hedge
  left f hf b hb := by
    rcases List.mem_cons.mp hf with rfl | hf
    · exact h.left _ List.mem_cons_self b (List.mem_cons_of_mem _ hb)
    · exact h.left f (List.mem_cons_of_mem _ hf) b hb

/-- A reference to a cell that is there and not on the trail is followed. -/
theorem push (h : Trail s marked (⟨c, a :: left⟩ :: outer)) (ha : (s.text? a).isSome)
    (hnew : a ∉ marked) :
    Trail s (marked.insert a) (⟨a, s.references a⟩ :: ⟨c, left⟩ :: outer) where
  mem_iff b := by
    have hb := h.mem_iff b
    rw [mem_insert_iff, hb, eq_comm]
    exact List.mem_cons.symm
  nodup := by
    rw [List.map_cons, List.nodup_cons]
    exact ⟨fun hmem => hnew ((h.mem_iff a).mpr hmem), h.nodup⟩
  linked := by
    refine List.isChain_cons_cons.mpr ⟨⟨?_, ha⟩, h.skip.linked⟩
    exact h.left _ List.mem_cons_self a List.mem_cons_self
  left f hf b hb := by
    rcases List.mem_cons.mp hf with rfl | hf
    · exact hb
    · exact h.skip.left f hf b hb

/-- The innermost cell is done with. -/
theorem pop {f : Frame} (h : Trail s marked (f :: outer)) :
    Trail s (marked.erase f.cell) outer where
  mem_iff a := by
    have ha := h.mem_iff a
    have hnot : f.cell ∉ outer.map Frame.cell := (List.nodup_cons.mp h.nodup).1
    rw [mem_erase_iff, ha, List.map_cons, List.mem_cons]
    constructor
    · rintro ⟨hne, heq | hmem⟩
      · exact absurd heq.symm hne
      · exact hmem
    · intro hmem
      exact ⟨fun heq => hnot (heq ▸ hmem), .inr hmem⟩
  nodup := (List.nodup_cons.mp h.nodup).2
  linked := h.linked.tail
  left g hg := h.left g (List.mem_cons_of_mem _ hg)

/-- Every cell on a trail leads to the innermost one. -/
theorem leads {f : Frame} (h : Trail s marked (f :: outer)) (ha : a ∈ marked) :
    ReflTransGen s.Edge a f.cell := by
  induction outer generalizing marked f with
  | nil =>
    have heq : a = f.cell := by simpa using (h.mem_iff a).mp ha
    exact heq ▸ .refl
  | cons g outer ih =>
    have hedge : s.Edge g.cell f.cell := (List.isChain_cons_cons.mp h.linked).1
    by_cases heq : f.cell = a
    · exact heq ▸ .refl
    · exact (ih h.pop (mem_erase_iff.mpr ⟨heq, ha⟩)).tail hedge

/-- The outermost cell leads to every cell on a trail. -/
theorem led {b : Address} (h : Trail s marked outer)
    (hlast : (outer.map Frame.cell).getLast? = some b) (ha : a ∈ marked) :
    ReflTransGen s.Edge b a := by
  induction outer generalizing marked a with
  | nil => simp at hlast
  | cons f outer ih =>
    cases outer with
    | nil =>
      have hb : f.cell = b := by simpa using hlast
      have heq : a = f.cell := by simpa using (h.mem_iff a).mp ha
      exact heq ▸ hb ▸ .refl
    | cons g outer =>
      have hlast' : ((g :: outer).map Frame.cell).getLast? = some b := by simpa using hlast
      have hedge : s.Edge g.cell f.cell := (List.isChain_cons_cons.mp h.linked).1
      by_cases heq : f.cell = a
      · have hg : g.cell ∈ marked.erase f.cell := (h.pop.mem_iff _).mpr (by simp)
        exact heq ▸ (ih h.pop hlast' hg).tail hedge
      · exact ih h.pop hlast' (mem_erase_iff.mpr ⟨heq, ha⟩)

end Trail

end Spreadsheet
