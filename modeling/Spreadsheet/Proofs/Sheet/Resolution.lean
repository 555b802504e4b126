import Spreadsheet.Proofs.Sheet.PlainValue

/-!
# Runs of a resolution

The trail of a resolution begins at its base and holds formulas that are not settled. Each
formula that a cell of the trail mentions is settled, on the trail itself or left to follow, so
that the innermost cell finds all it reads when nothing is left. The steps keep this, and what
every settling of a cell keeps holds of the memo when the run ends.
-/

namespace Spreadsheet

open Relation

/-- All formulas that a settled cell mentions are settled. -/
def Sheet.Covered (s : Sheet) (memo : Memo) : Prop :=
  ∀ a, a ∈ memo → ∀ b, s.Mentions a b → s.isFormula b = true → b ∈ memo

/-- The values in a memo after an insertion. -/
theorem Memo.getElem?_insert {memo : Memo} {a b : Address} {v : Value} :
    (memo.insert a v)[b]? = if a = b then some v else memo[b]? := by
  rw [Std.ExtTreeMap.getElem?_insert]
  simp only [Std.compare_eq_iff_eq]

theorem Memo.mem_insert_iff {memo : Memo} {a b : Address} {v : Value} :
    b ∈ memo.insert a v ↔ a = b ∨ b ∈ memo := by
  rw [Std.ExtTreeMap.mem_insert, Std.compare_eq_iff_eq]

theorem Memo.mem_of_getElem? {memo : Memo} {a : Address} {v : Value} (h : memo[a]? = some v) :
    a ∈ memo := by
  rw [Std.ExtTreeMap.mem_iff_isSome_getElem?, h]
  rfl

namespace Resolution

variable {s : Sheet} {base a b c : Address} {r r' : Resolution}

/-- A cell is taken if it is settled or on the trail. -/
theorem taken_iff : r.taken a = true ↔ a ∈ r.memo ∨ a ∈ r.resolving := by
  rw [taken, Bool.or_eq_true, ← Std.ExtTreeMap.mem_iff_contains, ← Std.ExtTreeSet.mem_iff_contains]

/-- A resolution under way that began at a base. -/
structure Sound (s : Sheet) (base : Address) (r : Resolution) : Prop where
  /-- The frames form a trail. -/
  trail : Trail s r.resolving (r.top :: r.outer)
  /-- The trail begins at the base. -/
  last : ((r.top :: r.outer).map Frame.cell).getLast? = some base
  /-- Only formulas are resolved. -/
  formulas : ∀ a, a ∈ r.resolving → s.isFormula a = true
  /-- No cell on the trail is settled. -/
  apart : ∀ a, a ∈ r.resolving → a ∉ r.memo
  /-- A formula that a frame mentions is left to follow or was taken. -/
  scanned : ∀ f ∈ r.top :: r.outer, ∀ a, s.Mentions f.cell a → s.isFormula a = true →
    a ∈ f.left ∨ r.taken a = true
  /-- A formula that a settled cell mentions was taken. -/
  covered : ∀ a, a ∈ r.memo → ∀ b, s.Mentions a b → s.isFormula b = true → r.taken b = true

namespace Sound

/-- A resolution begins with its cell alone on the trail. -/
theorem start {memo : Memo} (hcovered : s.Covered memo) (hnew : a ∉ memo)
    (ha : s.isFormula a = true) : Sound s a (start s memo a) where
  trail := Trail.start a
  last := rfl
  formulas b hb := mem_single_iff.mp hb ▸ ha
  apart b hb := mem_single_iff.mp hb ▸ hnew
  scanned f hf b hb _ := by
    rw [Resolution.start, List.mem_singleton] at hf
    subst hf
    exact .inl hb
  covered b hb c hc hformula := taken_iff.mpr (.inl (hcovered b hb c hc hformula))

/-- The base is on the trail all along. -/
theorem base_mem (h : Sound s base r) : base ∈ r.resolving :=
  (h.trail.mem_iff base).mpr (List.mem_of_getLast? h.last)

theorem top_mem (h : Sound s base r) : r.top.cell ∈ r.resolving :=
  (h.trail.mem_iff _).mpr List.mem_cons_self

theorem top_not_settled (h : Sound s base r) : r.top.cell ∉ r.memo := h.apart _ h.top_mem

/-- The base leads to every cell on the trail, the innermost one among them. -/
theorem leads_top (h : Sound s base r) : ReflTransGen s.Edge base r.top.cell :=
  h.trail.led h.last h.top_mem

/-- The base is the innermost cell only if it is the only one. -/
theorem outer_eq_nil (h : Sound s base r) (htop : r.top.cell = base) : r.outer = [] := by
  cases houter : r.outer with
  | nil => rfl
  | cons f outer =>
    have hnodup := h.trail.nodup
    have hlast := h.last
    rw [houter, List.map_cons] at hnodup hlast
    rw [List.map_cons, List.getLast?_cons_cons] at hlast
    exact absurd (htop ▸ List.mem_of_getLast? hlast) (List.nodup_cons.mp hnodup).1

/-- A reference is passed over. -/
theorem skip {left : List Address} (h : Sound s base r) (hleft : r.top.left = a :: left)
    (ha : r.taken a = true ∨ s.isFormula a = false) :
    Sound s base { r with top := ⟨r.top.cell, left⟩ } where
  trail := by
    refine Trail.skip (a := a) ?_
    rw [← hleft]
    exact h.trail
  last := h.last
  formulas := h.formulas
  apart := h.apart
  scanned f hf b hb hformula := by
    rcases List.mem_cons.mp hf with rfl | hf
    · rcases h.scanned r.top List.mem_cons_self b hb hformula with hb' | htaken
      · rw [hleft] at hb'
        rcases List.mem_cons.mp hb' with rfl | hb'
        · exact .inr (ha.resolve_right fun hnot => by simp [hformula] at hnot)
        · exact .inl hb'
      · exact .inr htaken
    · exact h.scanned f (List.mem_cons_of_mem _ hf) b hb hformula
  covered := h.covered

/-- What was taken stays taken when a cell is started on. -/
theorem taken_push {top : Frame} {outer : List Frame} (hb : r.taken b = true) :
    taken ⟨r.memo, r.resolving.insert a, top, outer⟩ b = true :=
  taken_iff.mpr ((taken_iff.mp hb).imp_right fun hon => mem_insert_iff.mpr (.inr hon))

/-- A reference to a formula that was not taken is followed. -/
theorem push {left : List Address} (h : Sound s base r) (hleft : r.top.left = a :: left)
    (hnew : r.taken a = false) (ha : s.isFormula a = true) :
    Sound s base ⟨r.memo, r.resolving.insert a, ⟨a, s.references a⟩,
      ⟨r.top.cell, left⟩ :: r.outer⟩ where
  trail := by
    refine Trail.push ?_ (Sheet.isSome_of_isFormula ha) fun hon => ?_
    · rw [← hleft]
      exact h.trail
    · have htaken : r.taken a = true := taken_iff.mpr (.inr hon)
      simp [hnew] at htaken
  last := by
    have hlast := h.last
    rw [List.map_cons] at hlast
    rw [List.map_cons, List.map_cons, List.getLast?_cons_cons]
    exact hlast
  formulas b hb := by
    rcases mem_insert_iff.mp hb with rfl | hb
    · exact ha
    · exact h.formulas b hb
  apart b hb := by
    rcases mem_insert_iff.mp hb with rfl | hb
    · intro hmemo
      have htaken : r.taken a = true := taken_iff.mpr (.inl hmemo)
      simp [hnew] at htaken
    · exact h.apart b hb
  scanned f hf b hb hformula := by
    rcases List.mem_cons.mp hf with rfl | hf
    · exact .inl hb
    · rcases List.mem_cons.mp hf with rfl | hf
      · rcases h.scanned r.top List.mem_cons_self b hb hformula with hb' | htaken
        · rw [hleft] at hb'
          rcases List.mem_cons.mp hb' with rfl | hb'
          · exact .inr (taken_iff.mpr (.inr (mem_insert_iff.mpr (.inl rfl))))
          · exact .inl hb'
        · exact .inr (taken_push htaken)
      · exact (h.scanned f (List.mem_cons_of_mem _ hf) b hb hformula).imp_right taken_push
  covered b hb c hc hformula := taken_push (h.covered b hb c hc hformula)

/-- What was taken stays taken when the innermost cell is settled. -/
theorem taken_settle {value : Value} {top : Frame} {outer : List Frame} (ha : r.taken a = true) :
    taken ⟨r.memo.insert r.top.cell value, r.resolving.erase r.top.cell, top, outer⟩ a =
      true := by
  refine taken_iff.mpr ?_
  by_cases heq : r.top.cell = a
  · exact .inl (Memo.mem_insert_iff.mpr (.inl heq))
  · rcases taken_iff.mp ha with hmemo | hon
    · exact .inl (Memo.mem_insert_iff.mpr (.inr hmemo))
    · exact .inr (mem_erase_iff.mpr ⟨heq, hon⟩)

/-- When nothing is left to follow, the formulas that the innermost cell mentions were taken. -/
theorem scanned_top (h : Sound s base r) (hleft : r.top.left = []) (ha : s.Mentions r.top.cell a)
    (hformula : s.isFormula a = true) : r.taken a = true := by
  refine (h.scanned r.top List.mem_cons_self a ha hformula).resolve_left ?_
  rw [hleft]
  exact List.not_mem_nil

/-- The innermost cell is settled. -/
theorem settle {value : Value} {top : Frame} {outer : List Frame} (h : Sound s base r)
    (hleft : r.top.left = []) (houter : r.outer = top :: outer) :
    Sound s base
      ⟨r.memo.insert r.top.cell value, r.resolving.erase r.top.cell, top, outer⟩ where
  trail := houter ▸ h.trail.pop
  last := by
    have hlast := h.last
    rw [houter, List.map_cons, List.map_cons, List.getLast?_cons_cons] at hlast
    exact hlast
  formulas a ha := h.formulas a (mem_erase_iff.mp ha).2
  apart a ha hmemo := by
    obtain ⟨hne, hon⟩ := mem_erase_iff.mp ha
    exact h.apart a hon ((Memo.mem_insert_iff.mp hmemo).resolve_left hne)
  scanned f hf a ha hformula := by
    have hf' : f ∈ r.top :: r.outer := houter ▸ List.mem_cons_of_mem _ hf
    exact (h.scanned f hf' a ha hformula).imp_right taken_settle
  covered a ha b hb hformula := by
    refine taken_settle ?_
    rcases Memo.mem_insert_iff.mp ha with rfl | ha
    · exact h.scanned_top hleft hb hformula
    · exact h.covered a ha b hb hformula

/-- A step that goes on leaves the memo alone or settles the innermost cell. -/
theorem step_running (h : Sound s base r) (hstep : r.step s = .running r') :
    Sound s base r' ∧ (r'.memo = r.memo ∨
      r.top.left = [] ∧ r'.memo = r.memo.insert r.top.cell (r.topValue s)) := by
  unfold step at hstep
  split at hstep
  · rename_i a left hleft
    split at hstep
    · rename_i hpass
      cases hstep
      exact ⟨h.skip hleft (by simpa using hpass), .inl rfl⟩
    · rename_i hfollow
      cases hstep
      obtain ⟨hnew, ha⟩ : r.taken a = false ∧ s.isFormula a = true := by simpa using hfollow
      exact ⟨h.push hleft hnew ha, .inl rfl⟩
  · rename_i hleft
    split at hstep
    · cases hstep
    · rename_i top outer houter
      cases hstep
      exact ⟨h.settle hleft houter, .inr ⟨hleft, rfl⟩⟩

/-- The last step settles the base. -/
theorem step_settled {value : Value} {memo : Memo} (h : Sound s base r)
    (hstep : r.step s = .settled value memo) :
    r.top.left = [] ∧ r.top.cell = base ∧ value = r.topValue s ∧
      memo = r.memo.insert r.top.cell value := by
  unfold step at hstep
  split at hstep
  · split at hstep <;> cases hstep
  · rename_i hleft
    split at hstep
    · rename_i houter
      cases hstep
      refine ⟨hleft, ?_, rfl, rfl⟩
      have hlast := h.last
      rw [houter] at hlast
      exact Option.some.inj hlast
    · cases hstep

/-- A run settles its base, and keeps what the settling of a cell keeps. -/
theorem run {keeps : Memo → Prop}
    (hsettle : ∀ r, Sound s base r → r.top.left = [] → keeps r.memo →
      keeps (r.memo.insert r.top.cell (r.topValue s)))
    (h : Sound s base r) (hkeeps : keeps r.memo) :
    (r.run s).2[base]? = some (r.run s).1 ∧ s.Covered (r.run s).2 ∧ keeps (r.run s).2 := by
  fun_induction Resolution.run s r with
  | case1 r value memo hstep =>
    obtain ⟨hleft, htop, rfl, rfl⟩ := h.step_settled hstep
    have hlone := h.outer_eq_nil htop
    refine ⟨?_, ?_, hsettle r h hleft hkeeps⟩
    · rw [htop, Memo.getElem?_insert, if_pos rfl]
    · intro a ha b hb hformula
      -- With one frame only, whatever was taken is in the memo now.
      have htaken : r.taken b = true := by
        rcases Memo.mem_insert_iff.mp ha with rfl | ha
        · exact h.scanned_top hleft hb hformula
        · exact h.covered a ha b hb hformula
      rcases taken_iff.mp htaken with hmemo | hon
      · exact Memo.mem_insert_iff.mpr (.inr hmemo)
      · have hb' := (h.trail.mem_iff b).mp hon
        rw [hlone, List.map_singleton, List.mem_singleton] at hb'
        exact Memo.mem_insert_iff.mpr (.inl hb'.symm)
  | case2 r r' hstep ih =>
    obtain ⟨h', hmemo | ⟨hleft, hmemo⟩⟩ := h.step_running hstep
    · exact ih h' (hmemo ▸ hkeeps)
    · exact ih h' (hmemo ▸ hsettle r h hleft hkeeps)

/-- A cell on the trail is read as circular. -/
theorem read_of_mem (h : Sound s base r) (ha : a ∈ r.resolving) :
    r.read s a = .error .circular := by
  unfold Resolution.read
  cases hmemo : r.memo[a]? with
  | some value => exact absurd (Memo.mem_of_getElem? hmemo) (h.apart a ha)
  | none => simp only [if_pos ha]

/-- What the innermost cell finds in a cell that it mentions when nothing is left to follow: a
circular reference on the trail, a settled value, or the value of a cell without a formula. -/
theorem read_top (h : Sound s base r) (hleft : r.top.left = []) (ha : s.Mentions r.top.cell a) :
    a ∈ r.resolving ∧ r.read s a = .error .circular ∨ r.memo[a]? = some (r.read s a) ∨
      s.isFormula a = false ∧ s.plainValue? a = some (r.read s a) := by
  by_cases hon : a ∈ r.resolving
  · exact .inl ⟨hon, h.read_of_mem hon⟩
  · unfold Resolution.read
    cases hmemo : r.memo[a]? with
    | some value => exact .inr (.inl rfl)
    | none =>
      have hformula : s.isFormula a = false := by
        by_contra hformula
        have htaken := h.scanned_top hleft ha (by simpa using hformula)
        have hsettled := (taken_iff.mp htaken).resolve_right hon
        rw [Std.ExtTreeMap.mem_iff_isSome_getElem?, hmemo] at hsettled
        simp at hsettled
      refine .inr (.inr ⟨hformula, ?_⟩)
      simp only [if_neg hon]
      rw [Sheet.plainValue?]
      cases ht : s.text? a with
      | none => exact Sheet.valueBy_of_gone ht
      | some text => exact Sheet.valueBy_of_not_formula ht (Sheet.isFormula_eq ht ▸ hformula)

/-- The innermost cell gets the value of its formula under what it reads. -/
theorem exists_topValue (h : Sound s base r) :
    ∃ text, s.text? r.top.cell = some text ∧ (Content.ofText text).isFormula = true ∧
      r.topValue s = Formula.valueUnder (r.read s) text := by
  obtain ⟨text, ht, hformula⟩ := Sheet.isFormula_iff.mp (h.formulas _ h.top_mem)
  refine ⟨text, ht, hformula, ?_⟩
  rw [topValue, ht, Option.getD_some]
  rfl

end Sound

end Resolution

end Spreadsheet
