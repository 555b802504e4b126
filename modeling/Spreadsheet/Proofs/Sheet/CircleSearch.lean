import Mathlib.Data.List.Nodup
import Spreadsheet.Proofs.Sheet.Trail

/-!
# The search for circles is exact

A hit of the search closes the trail to a way that leads from the starting cell into a circle.
While there is no hit, every cell that was left behind is grounded, for all its references were;
when the trail is empty this holds of the starting cell. The two answers exclude each other, and
the search decides which cells are circular.
-/

namespace Spreadsheet.Sheet

open Relation

variable {s : Sheet}

/-- A search that has not met a circle: what it left behind is grounded, and so is every cell
that an open frame has no longer left to follow, the frame inside it apart. -/
structure Unhit (s : Sheet) (visited onTrail : AddressSet) (frames : List Frame) : Prop where
  /-- The frames form a trail. -/
  trail : Trail s onTrail frames
  /-- What was visited and is not on the trail is grounded. -/
  behind : ∀ a, a ∈ visited → a ∉ onTrail → s.Grounded a
  /-- The references followed from the innermost frame. -/
  followed : ∀ f ∈ frames.head?, ∀ a, s.Edge f.cell a → a ∈ f.left ∨ s.Grounded a
  /-- The references followed from a frame around another. -/
  followedAround : frames.IsChain fun inner outer =>
    ∀ a, s.Edge outer.cell a → a ∈ outer.left ∨ s.Grounded a ∨ a = inner.cell

namespace Unhit

variable {visited onTrail : AddressSet} {c a : Address} {left : List Address} {outer : List Frame}

/-- A search begins with its start alone on the trail. -/
theorem start (a : Address) : Unhit s {a} {a} [⟨a, s.references a⟩] where
  trail := Trail.start a
  behind _ hv hn := absurd hv hn
  followed f hf b hb := by
    obtain rfl : ⟨a, s.references a⟩ = f := by simpa using hf
    exact .inl hb.1
  followedAround := List.isChain_singleton _

/-- A reference to a cell that is not there, or that is grounded, is passed over. -/
theorem skip (h : Unhit s visited onTrail (⟨c, a :: left⟩ :: outer))
    (ha : (s.text? a).isSome → s.Grounded a) :
    Unhit s visited onTrail (⟨c, left⟩ :: outer) where
  trail := h.trail.skip
  behind := h.behind
  followed f hf b hb := by
    obtain rfl : ⟨c, left⟩ = f := by simpa using hf
    rcases h.followed _ rfl b hb with hleft | hb'
    · rcases List.mem_cons.mp hleft with rfl | hleft
      · exact .inr (ha hb.2)
      · exact .inl hleft
    · exact .inr hb'
  followedAround := by
    refine List.IsChain.imp_head ?_ h.followedAround
    exact fun hall => hall

/-- A reference to a new cell is followed. -/
theorem push (h : Unhit s visited onTrail (⟨c, a :: left⟩ :: outer)) (ha : (s.text? a).isSome)
    (hnew : a ∉ onTrail) :
    Unhit s (visited.insert a) (onTrail.insert a)
      (⟨a, s.references a⟩ :: ⟨c, left⟩ :: outer) where
  trail := h.trail.push ha hnew
  behind b hb hoff := by
    rw [mem_insert_iff] at hb hoff
    exact h.behind b (hb.resolve_left fun heq => hoff (.inl heq)) fun hon => hoff (.inr hon)
  followed f hf b hb := by
    obtain rfl : ⟨a, s.references a⟩ = f := by simpa using hf
    exact .inl hb.1
  followedAround := by
    refine List.isChain_cons_cons.mpr ⟨fun b hb => ?_, ?_⟩
    · rcases h.followed _ rfl b hb with hleft | hb'
      · rcases List.mem_cons.mp hleft with rfl | hleft
        · exact .inr (.inr rfl)
        · exact .inl hleft
      · exact .inr (.inl hb')
    · refine List.IsChain.imp_head ?_ h.followedAround
      exact fun hall => hall

/-- A frame with nothing left to follow holds a grounded cell. -/
theorem grounded (h : Unhit s visited onTrail (⟨c, []⟩ :: outer)) : s.Grounded c := by
  refine Acc.intro c fun b hb => ?_
  exact (h.followed _ rfl b hb).resolve_left List.not_mem_nil

/-- Such a frame is left behind. -/
theorem pop (h : Unhit s visited onTrail (⟨c, []⟩ :: outer)) :
    Unhit s visited (onTrail.erase c) outer where
  trail := h.trail.pop
  behind b hb hoff := by
    by_cases heq : c = b
    · exact heq ▸ h.grounded
    · exact h.behind b hb fun hon => hoff (mem_erase_iff.mpr ⟨heq, hon⟩)
  followed f hf b hb := by
    cases outer with
    | nil => simp at hf
    | cons g outer =>
      obtain rfl : g = f := by simpa using hf
      rcases (List.isChain_cons_cons.mp h.followedAround).1 b hb with hleft | hb' | heq
      · exact .inl hleft
      · exact .inr hb'
      · exact .inr (heq ▸ h.grounded)
  followedAround := h.followedAround.tail

end Unhit

/-- A search without a hit leaves only grounded cells behind. -/
theorem grounded_of_searchCycle {visited onTrail : AddressSet} {trail : List Frame}
    (h : Unhit s visited onTrail trail)
    (hnone : s.searchCycle visited onTrail trail = none) {a : Address} (ha : a ∈ visited) :
    s.Grounded a := by
  fun_induction searchCycle s visited onTrail trail with
  | case1 visited onTrail =>
    refine h.behind a ha fun hon => ?_
    simpa using (h.trail.mem_iff a).mp hon
  | case2 visited onTrail c outer ih => exact ih h.pop hnone ha
  | case3 visited onTrail c b left outer hgone ih =>
    exact ih (h.skip fun hthere => by simp [Option.isNone_iff_eq_none.mp hgone] at hthere)
      hnone ha
  | case4 => simp at hnone
  | case5 visited onTrail c b left outer hthere hoff hvisited ih =>
    exact ih (h.skip fun _ => h.behind b hvisited hoff) hnone ha
  | case6 visited onTrail c b left outer hthere hoff hnew ih =>
    have hb : (s.text? b).isSome := by simpa [Option.isSome_iff_ne_none] using hthere
    exact ih (h.push hb hoff) hnone (mem_insert_iff.mpr (.inr ha))

/-- A way along the edges from a cell to the first cell that is met twice. -/
structure ClosingWay (s : Sheet) (start : Address) (way : List Address) : Prop where
  /-- The way begins at the starting cell. -/
  head : way.head? = some start
  /-- It follows the edges. -/
  linked : way.IsChain s.Edge
  /-- No cell is met twice before the end. -/
  nodup : way.dropLast.Nodup
  /-- The last cell was met before. -/
  closes : ∃ a ∈ way.dropLast, way.getLast? = some a

/-- A way that closes ends in a circle. -/
theorem ClosingWay.circular {start : Address} {way : List Address}
    (h : s.ClosingWay start way) : s.Circular start := by
  obtain ⟨a, ha, hlast⟩ := h.closes
  obtain ⟨before, between, hsplit⟩ := List.append_of_mem ha
  have hway : before ++ a :: (between ++ [a]) = way := by
    rw [← List.dropLast_append_getLast? a hlast, hsplit, List.append_assoc, List.cons_append]
  obtain ⟨hbefore, hbetween⟩ := List.isChain_split.mp (hway ▸ h.linked)
  have hcircle : TransGen s.Edge a a := by
    cases between with
    | nil => exact .single (List.isChain_pair.mp hbetween)
    | cons b between =>
      obtain ⟨hedge, hchain⟩ := List.isChain_cons_cons.mp hbetween
      exact .head' hedge (List.relationReflTransGen_of_exists_isChain_cons _ hchain (by simp))
  have hreach : ReflTransGen s.Edge start a := by
    have hhead : (before ++ [a]).head? = some start := by
      have hhead := h.head
      rw [← hway] at hhead
      cases before <;> simpa using hhead
    obtain ⟨rest, hrest⟩ := List.head?_eq_some_iff.mp hhead
    refine List.relationReflTransGen_of_exists_isChain_cons rest (hrest ▸ hbefore) ?_
    simp [← hrest]
  exact ⟨a, hreach, hcircle⟩

/-- A reference back onto a trail closes the trail to a way from its outermost cell. -/
theorem closingWay_of_trail {marked : AddressSet} {c a start : Address} {left : List Address}
    {outer : List Frame} (h : Trail s marked (⟨c, a :: left⟩ :: outer)) (ha : (s.text? a).isSome)
    (hon : a ∈ marked) (hlast : (c :: outer.map Frame.cell).getLast? = some start) :
    s.ClosingWay start ((c :: outer.map Frame.cell).reverse ++ [a]) where
  head := by
    rw [List.head?_append, List.head?_reverse, hlast]
    rfl
  linked := by
    have hedge : s.Edge c a := ⟨h.left _ List.mem_cons_self a List.mem_cons_self, ha⟩
    have hchain : (c :: outer.map Frame.cell).reverse.IsChain s.Edge :=
      List.isChain_reverse.mpr
        ((List.isChain_map Frame.cell (l := ⟨c, a :: left⟩ :: outer)).mpr h.linked)
    refine hchain.append (List.isChain_singleton a) fun b hb b' hb' => ?_
    obtain rfl : c = b := by simpa [List.getLast?_reverse] using hb
    obtain rfl : a = b' := by simpa using hb'
    exact hedge
  nodup := by
    rw [List.dropLast_concat]
    exact List.nodup_reverse.mpr h.nodup
  closes := by
    refine ⟨a, ?_, List.getLast?_concat⟩
    rw [List.dropLast_concat, List.mem_reverse]
    exact (h.mem_iff a).mp hon

/-- A hit of the search is a way from the outermost cell of the trail. -/
theorem closingWay_of_searchCycle {visited onTrail : AddressSet} {trail : List Frame}
    {way : List Address} {start : Address} (h : Trail s onTrail trail)
    (hlast : (trail.map Frame.cell).getLast? = some start)
    (hsome : s.searchCycle visited onTrail trail = some way) : s.ClosingWay start way := by
  fun_induction searchCycle s visited onTrail trail with
  | case1 => simp at hsome
  | case2 visited onTrail c outer ih =>
    cases outer with
    | nil => simp [searchCycle] at hsome
    | cons f outer => exact ih h.pop (by simpa using hlast) hsome
  | case3 visited onTrail c b left outer hgone ih => exact ih h.skip hlast hsome
  | case4 visited onTrail c b left outer hthere hon =>
    have hb : (s.text? b).isSome := by simpa [Option.isSome_iff_ne_none] using hthere
    obtain rfl := Option.some.inj hsome
    exact closingWay_of_trail h hb hon hlast
  | case5 visited onTrail c b left outer hthere hoff hvisited ih =>
    exact ih h.skip hlast hsome
  | case6 visited onTrail c b left outer hthere hoff hnew ih =>
    have hb : (s.text? b).isSome := by simpa [Option.isSome_iff_ne_none] using hthere
    exact ih (h.push hb hoff) (by simpa using hlast) hsome

/-- The search answers with a way from its starting cell. -/
theorem closingWay_of_findCycle {start : Address} {way : List Address}
    (h : s.findCycle start = some way) : s.ClosingWay start way := by
  unfold findCycle at h
  split at h
  · cases h
  · exact closingWay_of_searchCycle (Trail.start start) rfl h

/-- A cell from which the search finds no circle is grounded. -/
theorem grounded_of_hasCycle {a : Address} (h : s.hasCycle a = false) : s.Grounded a := by
  by_cases hgone : (s.text? a).isNone = true
  · refine grounded_of_not_formula (Bool.eq_false_iff.mpr fun hformula => ?_)
    simpa [Option.isNone_iff_eq_none.mp hgone] using isSome_of_isFormula hformula
  · rw [hasCycle, findCycle, if_neg hgone, Option.isSome_eq_false_iff,
      Option.isNone_iff_eq_none] at h
    exact grounded_of_searchCycle (Unhit.start a) h (mem_single_iff.mpr rfl)

/-- The search finds a circle exactly if one can be reached. -/
theorem hasCycle_iff {a : Address} : s.hasCycle a = true ↔ s.Circular a := by
  constructor
  · intro h
    obtain ⟨way, hway⟩ := Option.isSome_iff_exists.mp h
    exact (closingWay_of_findCycle hway).circular
  · intro h
    by_contra hno
    exact (grounded_of_hasCycle (Bool.eq_false_iff.mpr hno)).not_circular h

/-- On a finite sheet every way from a cell ends unless it can reach a circle. -/
theorem grounded_iff {a : Address} : s.Grounded a ↔ ¬ s.Circular a := by
  constructor
  · exact Grounded.not_circular
  · intro h
    exact grounded_of_hasCycle (Bool.eq_false_iff.mpr (mt hasCycle_iff.mp h))

/-- The search decides whether a cell is circular. -/
instance (s : Sheet) (a : Address) : Decidable (s.Circular a) :=
  decidable_of_iff (s.hasCycle a = true) hasCycle_iff

end Spreadsheet.Sheet
