import Spreadsheet.Proofs.Sheet.Query

/-!
# What a search or an evaluation looks at

The search for a circle and the resolution of a cell look up the texts of those cells only that
can be reached, mention by mention, from the cell where they start. So over two sheets that agree
on these cells they take the same steps, and the same way into a circle and the same value come
out. A text that is edited, added or removed elsewhere makes no difference.
-/

namespace Spreadsheet

open Relation

variable {s s' : Sheet} {a b c : Address}

/-- Two assignments that agree on the mentioned cells give a formula the same value. -/
theorem Formula.valueUnder_congr {read read' : Address → Value} {text : String}
    (h : ∀ b ∈ references text, read b = read' b) :
    valueUnder read text = valueUnder read' text := by
  have hread : evaluate (some ∘ read) text = some (valueUnder read text) :=
    evaluate_eq_of_reads fun _ _ => rfl
  have hread' : evaluate (some ∘ read) text = some (valueUnder read' text) :=
    evaluate_eq_of_reads fun b hb => congrArg some (h b (mem_references_of_mem_reads hb))
  exact Option.some.inj (hread.symm.trans hread')

/-- A frame whose cell can be reached from a cell, together with all that is left to follow. -/
structure Frame.Reached (s : Sheet) (a : Address) (f : Frame) : Prop where
  /-- The cell of the frame can be reached. -/
  cell : ReflTransGen s.Mentions a f.cell
  /-- What is left to follow can be reached. -/
  left : ∀ b ∈ f.left, ReflTransGen s.Mentions a b

namespace Frame.Reached

variable {left : List Address}

/-- The references of a cell that is reached are reached. -/
theorem ofReferences (h : ReflTransGen s.Mentions a c) : Reached s a ⟨c, s.references c⟩ where
  cell := h
  left _ hb := h.tail hb

theorem next (h : Reached s a ⟨c, b :: left⟩) : ReflTransGen s.Mentions a b :=
  h.left b List.mem_cons_self

/-- A reference is passed over. -/
theorem skip (h : Reached s a ⟨c, b :: left⟩) : Reached s a ⟨c, left⟩ where
  cell := h.cell
  left d hd := h.left d (List.mem_cons_of_mem _ hd)

end Frame.Reached

/-- The search goes the same way over both sheets. -/
theorem Sheet.AgreeFrom.searchCycle (h : AgreeFrom s s' a) {visited onTrail : AddressSet}
    {trail : List Frame} (htrail : ∀ f ∈ trail, f.Reached s a) :
    s'.searchCycle visited onTrail trail = s.searchCycle visited onTrail trail := by
  fun_induction Sheet.searchCycle s visited onTrail trail with
  | case1 => rw [Sheet.searchCycle]
  | case2 visited onTrail c outer ih =>
    rw [Sheet.searchCycle, ih fun f hf => htrail f (List.mem_cons_of_mem _ hf)]
  | case3 visited onTrail c b left outer hgone ih =>
    obtain ⟨htop, houter⟩ := List.forall_mem_cons.mp htrail
    have htext := h b htop.next
    rw [Sheet.searchCycle, dif_pos (htext ▸ hgone),
      ih (List.forall_mem_cons.mpr ⟨htop.skip, houter⟩)]
  | case4 visited onTrail c b left outer hthere hon =>
    obtain ⟨htop, houter⟩ := List.forall_mem_cons.mp htrail
    have htext := h b htop.next
    rw [Sheet.searchCycle, dif_neg (htext ▸ hthere), if_pos hon]
  | case5 visited onTrail c b left outer hthere hon hseen ih =>
    obtain ⟨htop, houter⟩ := List.forall_mem_cons.mp htrail
    have htext := h b htop.next
    rw [Sheet.searchCycle, dif_neg (htext ▸ hthere), if_neg hon, dif_pos hseen,
      ih (List.forall_mem_cons.mpr ⟨htop.skip, houter⟩)]
  | case6 visited onTrail c b left outer hthere hon hnew ih =>
    obtain ⟨htop, houter⟩ := List.forall_mem_cons.mp htrail
    have htext := h b htop.next
    have hreferences := (h.of_mentions htop.next).references
    rw [Sheet.searchCycle, dif_neg (htext ▸ hthere), if_neg hon, dif_neg hnew, ← hreferences, ih]
    exact List.forall_mem_cons.mpr
      ⟨.ofReferences htop.next, List.forall_mem_cons.mpr ⟨htop.skip, houter⟩⟩

/-- The way into a circle depends on the cells that can be reached. -/
theorem Sheet.AgreeFrom.findCycle (h : AgreeFrom s s' a) : s'.findCycle a = s.findCycle a := by
  rw [Sheet.findCycle, Sheet.findCycle, ← h.text, ← h.references]
  split
  · rfl
  · exact h.searchCycle (List.forall_mem_singleton.mpr (.ofReferences .refl))

namespace Resolution

variable {r r' : Resolution}

/-- Every frame of a resolution can be reached from a cell. -/
def Reached (s : Sheet) (a : Address) (r : Resolution) : Prop :=
  ∀ f ∈ r.top :: r.outer, f.Reached s a

/-- A cell that can be reached is read alike. -/
theorem read_eq (h : s.AgreeFrom s' a) (hb : ReflTransGen s.Mentions a b) :
    r.read s' b = r.read s b := by
  rw [read, read, h b hb]

/-- The innermost cell gets the same value. -/
theorem topValue_eq (h : s.AgreeFrom s' a) (hr : r.Reached s a) :
    r.topValue s' = r.topValue s := by
  have htop := hr r.top List.mem_cons_self
  have hvalue : ∀ s : Sheet, r.topValue s =
    Formula.valueUnder (r.read s) ((s.text? r.top.cell).getD "") := fun _ => rfl
  rw [hvalue, hvalue, ← h r.top.cell htop.cell]
  refine Formula.valueUnder_congr fun b hb => read_eq h (htop.cell.tail ?_)
  cases htext : s.text? r.top.cell with
  | none =>
    have hempty : Formula.references "" = [] := by decide
    rw [htext, Option.getD_none, hempty] at hb
    cases hb
  | some text =>
    rw [Sheet.Mentions, Sheet.references_eq htext]
    rwa [htext] at hb

/-- A step is the same over both sheets. -/
theorem step_eq (h : s.AgreeFrom s' a) (hr : r.Reached s a) : r.step s' = r.step s := by
  unfold step
  split
  · rename_i b left hleft
    have hb := (hr r.top List.mem_cons_self).left b (hleft ▸ List.mem_cons_self)
    have hformula : s'.isFormula b = s.isFormula b := by
      rw [Sheet.isFormula, Sheet.isFormula, h b hb]
    rw [hformula, (h.of_mentions hb).references]
  · rw [topValue_eq h hr]

/-- A step reaches no further. -/
theorem Reached.step (hr : r.Reached s a) (hstep : r.step s = .running r') :
    r'.Reached s a := by
  obtain ⟨htop, houter⟩ := List.forall_mem_cons.mp hr
  unfold Resolution.step at hstep
  split at hstep
  · rename_i b left hleft
    have hb := htop.left b (hleft ▸ List.mem_cons_self)
    have hskip : Frame.Reached s a ⟨r.top.cell, left⟩ :=
      ⟨htop.cell, fun c hc => htop.left c (hleft ▸ List.mem_cons_of_mem _ hc)⟩
    split at hstep
    · cases hstep
      exact List.forall_mem_cons.mpr ⟨hskip, houter⟩
    · cases hstep
      exact List.forall_mem_cons.mpr
        ⟨.ofReferences hb, List.forall_mem_cons.mpr ⟨hskip, houter⟩⟩
  · split at hstep
    · cases hstep
    · rename_i top outer hrest
      cases hstep
      rwa [hrest] at houter

theorem run_of_settled {value : Value} {memo : Memo} (h : r.step s = .settled value memo) :
    r.run s = (value, memo) := by
  rw [run]
  split
  · rename_i h'
    cases h.symm.trans h'
    rfl
  · rename_i h'
    cases h.symm.trans h'

theorem run_of_running (h : r.step s = .running r') : r.run s = r'.run s := by
  rw [run]
  split
  · rename_i h'
    cases h.symm.trans h'
  · rename_i h'
    cases h.symm.trans h'
    rfl

/-- A run is the same over both sheets. -/
theorem run_eq (h : s.AgreeFrom s' a) (hr : r.Reached s a) : r.run s' = r.run s := by
  fun_induction Resolution.run s r with
  | case1 r value memo hstep => exact run_of_settled ((step_eq h hr).trans hstep)
  | case2 r r' hstep ih =>
    rw [run_of_running ((step_eq h hr).trans hstep)]
    exact ih (hr.step hstep)

end Resolution

namespace Sheet

/-- The value of a cell depends on the cells that can be reached, and so does what is settled on
the way to it. -/
theorem AgreeFrom.cellValue (h : AgreeFrom s s' a) (memo : Memo) :
    s'.cellValue a memo = s.cellValue a memo := by
  have hstart : Resolution.start s' memo a = Resolution.start s memo a := by
    rw [Resolution.start, Resolution.start, h.references]
  have hreached : (Resolution.start s memo a).Reached s a :=
    List.forall_mem_singleton.mpr (.ofReferences .refl)
  rw [Sheet.cellValue, Sheet.cellValue, ← h.text, hstart, Resolution.run_eq h hreached]

/-- A sheet with another text in a cell, or with none. -/
def withText? (s : Sheet) (a : Address) (text? : Option String) : Sheet :=
  ⟨s.texts.alter a fun _ => text?⟩

/-- The texts of a sheet in which one text is replaced. -/
theorem text?_withText? {text? : Option String} :
    (s.withText? a text?).text? b = if a = b then text? else s.text? b := by
  rw [Sheet.text?, withText?, Std.ExtTreeMap.getElem?_alter]
  simp only [Std.compare_eq_iff_eq]
  rfl

/-- Whatever happens to a cell that cannot be reached, the cells that can are as they were. -/
theorem agreeFrom_withText? (hb : ¬ ReflTransGen s.Mentions a b) (text? : Option String) :
    AgreeFrom s (s.withText? b text?) a := by
  intro c hc
  rw [text?_withText?, if_neg]
  rintro rfl
  exact hb hc

/-- The way into a circle and the value of a cell are the same over two sheets that agree on all
cells that can be reached from it in one of them. So no edit, addition or removal of another cell
affects them. -/
theorem findCycle_and_fresh_local (s : Sheet) (a : Address) :
    (∀ s' : Sheet, (∀ b, ReflTransGen s.Mentions a b → s.text? b = s'.text? b) →
      s'.findCycle a = s.findCycle a ∧ Query.fresh s' (.cell a) = Query.fresh s (.cell a)) ∧
    ∀ b, ¬ ReflTransGen s.Mentions a b → ∀ text? : Option String,
      (s.withText? b text?).findCycle a = s.findCycle a ∧
        Query.fresh (s.withText? b text?) (.cell a) = Query.fresh s (.cell a) := by
  have hagree : ∀ s' : Sheet, AgreeFrom s s' a →
      s'.findCycle a = s.findCycle a ∧ Query.fresh s' (.cell a) = Query.fresh s (.cell a) :=
    fun s' h => ⟨h.findCycle, congrArg Prod.fst (h.cellValue ∅)⟩
  exact ⟨hagree, fun b hb text? => hagree _ (agreeFrom_withText? hb text?)⟩

/-- Two cells form a ring, and one of them also mentions a missing cell. They are not affected
when a cell that mentions them becomes a literal and another cell is added. -/
theorem findCycle_and_fresh_local_ring :
    let s := Sheet.ofList [(⟨0, 0⟩, "=(B1)"), (⟨0, 1⟩, "=(Z9+A1)"), (⟨0, 2⟩, "=(A1)")]
    let s' := Sheet.ofList
      [(⟨0, 0⟩, "=(B1)"), (⟨0, 1⟩, "=(Z9+A1)"), (⟨0, 2⟩, "5"), (⟨0, 3⟩, "1")]
    s'.findCycle ⟨0, 0⟩ = some [⟨0, 0⟩, ⟨0, 1⟩, ⟨0, 0⟩] ∧
      Query.fresh s' (.cell ⟨0, 0⟩) = Query.fresh s (.cell ⟨0, 0⟩) := by
  intro s s'
  have hfirst : s.references ⟨0, 0⟩ = [⟨0, 1⟩] := by decide +kernel
  have hsecond : s.references ⟨0, 1⟩ = [⟨8, 25⟩, ⟨0, 0⟩] := by decide +kernel
  have hgone : s.references ⟨8, 25⟩ = [] := by decide
  have hreached : ∀ b, ReflTransGen s.Mentions ⟨0, 0⟩ b →
      b = ⟨0, 0⟩ ∨ b = ⟨0, 1⟩ ∨ b = ⟨8, 25⟩ := by
    intro b hb
    induction hb with
    | refl => exact .inl rfl
    | tail _ hmentions ih =>
      rw [Mentions] at hmentions
      rcases ih with rfl | rfl | rfl
      · rw [hfirst] at hmentions
        exact .inr (.inl (List.mem_singleton.mp hmentions))
      · rw [hsecond] at hmentions
        rcases List.mem_cons.mp hmentions with rfl | hmentions
        · exact .inr (.inr rfl)
        · exact .inl (List.mem_singleton.mp hmentions)
      · rw [hgone] at hmentions
        cases hmentions
  have hagree : ∀ b, ReflTransGen s.Mentions ⟨0, 0⟩ b → s.text? b = s'.text? b := by
    intro b hb
    rcases hreached b hb with rfl | rfl | rfl <;> decide
  have hfound : s.findCycle ⟨0, 0⟩ = some [⟨0, 0⟩, ⟨0, 1⟩, ⟨0, 0⟩] := by
    rw [Sheet.findCycle, if_neg (by decide), hfirst, Sheet.searchCycle, dif_neg (by decide),
      if_neg (by decide), dif_neg (by decide), hsecond, Sheet.searchCycle, dif_pos (by decide),
      Sheet.searchCycle, dif_neg (by decide), if_pos (by decide)]
    rfl
  obtain ⟨hcycle, hvalue⟩ := (findCycle_and_fresh_local s ⟨0, 0⟩).1 s' hagree
  exact ⟨hcycle.trans hfound, hvalue⟩

end Sheet

end Spreadsheet
