import Spreadsheet.Proofs.Sheet.Query

/-!
# Answers that depend on the history

When the evaluation of a cell reads back, the formula that it reads leads to the cell. A
resolution that begins at that formula settles the cell while the formula is still on the trail,
and so as circular; a resolution that begins at the cell does not. The order of two queries then
decides the answer, and in no other case does the history of queries matter.
-/

namespace Spreadsheet

open Relation

namespace Sheet

variable {s : Sheet} {base a b : Address}

/-- The value of a settled cell was found with the base of the resolution read as circular, and
all else read as circular or as it is settled. Only itself is circular to the base. -/
def Explained (s : Sheet) (base : Address) (memo : Memo) (a : Address) : Prop :=
  ∃ text read, s.text? a = some text ∧ (Content.ofText text).isFormula = true ∧
    memo[a]? = some (Formula.valueUnder read text) ∧ read base = .error .circular ∧
    ∀ b ∈ Formula.references text,
      read b = .error .circular ∧ (a = base → b = base) ∨ memo[b]? = some (read b) ∨
        s.isFormula b = false ∧ s.plainValue? b = some (read b)

/-- Settling another cell changes nothing about a value. -/
theorem Explained.insert {memo : Memo} {v : Value} (h : s.Explained base memo a) (hb : b ∉ memo) :
    s.Explained base (memo.insert b v) a := by
  have hkeep : ∀ (c : Address) (w : Value), memo[c]? = some w → (memo.insert b v)[c]? = some w := by
    intro c w hc
    have hne : b ≠ c := fun heq => hb (heq ▸ Memo.mem_of_getElem? hc)
    rw [Memo.getElem?_insert, if_neg hne, hc]
  obtain ⟨text, read, ht, hformula, hvalue, hbase, hreads⟩ := h
  refine ⟨text, read, ht, hformula, hkeep a _ hvalue, hbase, fun c hc => ?_⟩
  rcases hreads c hc with hcircular | hmemo | hplain
  · exact .inl hcircular
  · exact .inr (.inl (hkeep c _ hmemo))
  · exact .inr (.inr hplain)

/-- The innermost cell is settled with an explained value. -/
theorem explained_top {r : Resolution} (h : Resolution.Sound s base r) (hleft : r.top.left = []) :
    s.Explained base (r.memo.insert r.top.cell (r.topValue s)) r.top.cell := by
  obtain ⟨text, ht, hformula, hvalue⟩ := h.exists_topValue
  refine ⟨text, r.read s, ht, hformula, ?_, h.read_of_mem h.base_mem, fun a ha => ?_⟩
  · rw [Memo.getElem?_insert, if_pos rfl, hvalue]
  · have hmentions : s.Mentions r.top.cell a := by rwa [Mentions, references_eq ht]
    rcases h.read_top hleft hmentions with ⟨hon, hcircular⟩ | hmemo | hplain
    · refine .inl ⟨hcircular, fun htop => ?_⟩
      have ha' := (h.trail.mem_iff a).mp hon
      rw [h.outer_eq_nil htop, List.map_singleton, List.mem_singleton] at ha'
      exact ha'.trans htop
    · refine .inr (.inl ?_)
      have hne : r.top.cell ≠ a := fun heq =>
        h.top_not_settled (heq ▸ Memo.mem_of_getElem? hmemo)
      rw [Memo.getElem?_insert, if_neg hne, hmemo]
    · exact .inr (.inr hplain)

/-- The formulas that a base leads to are settled by a resolution with nothing settled before,
and their values explained. -/
theorem explained_of_edges {value : Value} {memo : Memo}
    (hrun : (Resolution.start s ∅ base).run s = (value, memo)) (hbase : s.isFormula base = true)
    (ha : ReflTransGen s.Edge base a) (hformula : s.isFormula a = true) :
    s.Explained base memo a := by
  have hstart : Resolution.Sound s base (Resolution.start s ∅ base) :=
    Resolution.Sound.start (Settled.empty s).covered Std.ExtTreeMap.not_mem_empty hbase
  let explains (m : Memo) : Prop := ∀ b, b ∈ m → s.Explained base m b
  have hsettle : ∀ r, Resolution.Sound s base r → r.top.left = [] → explains r.memo →
      explains (r.memo.insert r.top.cell (r.topValue s)) := by
    intro r h hleft hexplains b hb
    rcases Memo.mem_insert_iff.mp hb with rfl | hb
    · exact explained_top h hleft
    · exact (hexplains b hb).insert h.top_not_settled
  obtain ⟨hvalue, hcovered, hexplains⟩ :=
    hstart.run hsettle fun b hb => absurd hb Std.ExtTreeMap.not_mem_empty
  rw [hrun] at hvalue hcovered hexplains
  refine hexplains a ?_
  induction ha with
  | refl => exact Memo.mem_of_getElem? hvalue
  | tail _ hlast ih => exact hcovered _ (ih hlast.1.isFormula) _ hlast.1 hformula

/-- Every query gets the same answer whatever was asked before. -/
def HistoryFree (s : Sheet) : Prop :=
  ∀ queries, s.answers queries ∅ = queries.map (Query.fresh s)

namespace HistoryFree

variable (hfree : s.HistoryFree)
include hfree

/-- What a resolution settles on the way is what it would settle if it began there. -/
theorem fresh_of_settled {value v : Value} {memo : Memo}
    (hrun : (Resolution.start s ∅ base).run s = (value, memo)) (hbase : s.isFormula base = true)
    (ha : memo[a]? = some v) : Query.fresh s (.cell a) = v := by
  have hfirst : s.cellValue base ∅ = (value, memo) := by
    rw [cellValue_of_formula (by simp) hbase, hrun]
  have hanswers := hfree [.cell base, .cell a]
  simp only [answers, Query.ask, hfirst, cellValue_of_settled ha, List.map_cons, List.map_nil,
    List.cons.injEq, and_true] at hanswers
  exact hanswers.2.symm

/-- The fresh answer for a formula that a base leads to is also the one found with the base read
as circular. -/
theorem explained (hbase : s.isFormula base = true) (ha : ReflTransGen s.Edge base a)
    (hformula : s.isFormula a = true) :
    ∃ text read, s.text? a = some text ∧
      Query.fresh s (.cell a) = Formula.valueUnder read text ∧ read base = .error .circular ∧
      ∀ b ∈ Formula.references text,
        read b = .error .circular ∧ (a = base → b = base) ∨ read b = Query.fresh s (.cell b) := by
  obtain ⟨value, memo, hrun⟩ : ∃ value memo,
      (Resolution.start s ∅ base).run s = (value, memo) := ⟨_, _, rfl⟩
  obtain ⟨text, read, ht, _, hvalue, hcircular, hreads⟩ :=
    explained_of_edges hrun hbase ha hformula
  refine ⟨text, read, ht, hfree.fresh_of_settled hrun hbase hvalue, hcircular, fun b hb => ?_⟩
  rcases hreads b hb with htrail | hmemo | ⟨hnot, hplain⟩
  · exact .inl htrail
  · exact .inr (hfree.fresh_of_settled hrun hbase hmemo).symm
  · refine .inr ?_
    rw [Query.fresh_cell (grounded_of_not_formula hnot).steady,
      settledValue_of_plainValue? hplain]

/-- The cells that an evaluation reads to find that answer are read as circular or right, if the
values given to cells are their fresh answers. -/
theorem explained_reads {f : Address → Option Value} {text : String}
    (hf : ∀ b w, f b = some w → Query.fresh s (.cell b) = w)
    (hbase : s.isFormula base = true) (ha : ReflTransGen s.Edge base a)
    (ht : s.text? a = some text) (hformula : (Content.ofText text).isFormula = true)
    (hsome : (Formula.evaluate f text).isSome) :
    ∃ read, Query.fresh s (.cell a) = Formula.valueUnder read text ∧
      read base = .error .circular ∧ ∀ b ∈ Formula.reads f text,
        read b = .error .circular ∧ (a = base → b = base) ∨ f b = some (read b) := by
  obtain ⟨text', read, ht', hfresh, hcircular, hreads⟩ :=
    hfree.explained hbase ha (isFormula_iff.mpr ⟨text, ht, hformula⟩)
  obtain rfl : text = text' := Option.some.inj (ht.symm.trans ht')
  refine ⟨read, hfresh, hcircular, fun b hb => ?_⟩
  obtain ⟨w, hw⟩ := Option.isSome_iff_exists.mp (Formula.isSome_of_mem_reads hsome hb)
  refine (hreads b (Formula.mem_references_of_mem_reads hb)).imp_right fun hread => ?_
  rw [hw, hread, hf b w hw]

/-- A formula's cell has the value of the formula for its fresh answer, if fresh answers that are
not circular are given to the cells that are read. -/
theorem fresh_of_formula {f : Address → Option Value} {text : String} {v : Value}
    (hf : ∀ b w, f b = some w → Query.fresh s (.cell b) = w ∧ w ≠ .error .circular)
    (ht : s.text? a = some text) (hformula : (Content.ofText text).isFormula = true)
    (hv : Formula.evaluate f text = some v) : Query.fresh s (.cell a) = v := by
  have hsome : (Formula.evaluate f text).isSome := by rw [hv]; rfl
  obtain ⟨read, hfresh, hself, hreads⟩ := hfree.explained_reads (fun b w hw => (hf b w hw).1)
    (isFormula_iff.mpr ⟨text, ht, hformula⟩) .refl ht hformula hsome
  by_cases hmem : a ∈ Formula.reads f text
  · -- A cell that reads itself is circular, and was given another value.
    obtain ⟨w, hw⟩ := Option.isSome_iff_exists.mp (Formula.isSome_of_mem_reads hsome hmem)
    have hvalue := Formula.valueUnder_eq_circular
      (fun b hb => (hreads b hb).imp_left And.left) ⟨a, hmem, hself⟩
    obtain ⟨heq, hne⟩ := hf a w hw
    exact absurd (heq.symm.trans (hfresh.trans hvalue)) hne
  · have hall : ∀ b ∈ Formula.reads f text, f b = some (read b) := fun b hb =>
      (hreads b hb).resolve_left fun hread => hmem (hread.2 rfl ▸ hb)
    rw [Formula.evaluate_eq_of_reads hall] at hv
    rw [hfresh, Option.some.inj hv]

/-- The fresh answer for a cell is its plain value, if it has one. -/
theorem fresh_of_plainValue? {v : Value} (ha : s.plainValue? a = some v) :
    Query.fresh s (.cell a) = v := by
  refine (plainValue?.partial_correctness s
    (fun a v => Query.fresh s (.cell a) = v ∧ v ≠ .error .circular) ?_ a v ha).1
  intro f hf a v hv
  cases hformula : s.isFormula a with
  | false =>
    have hplain : s.plainValue? a = some v := by
      rw [plainValue?, valueBy_eq_of_not_formula hformula s.plainValue? f, hv]
    refine ⟨?_, fun heq => s.plainValue?_ne_circular a (heq ▸ hplain)⟩
    rw [Query.fresh_cell (grounded_of_not_formula hformula).steady,
      settledValue_of_plainValue? hplain]
  | true =>
    obtain ⟨text, ht, hft⟩ := isFormula_iff.mp hformula
    rw [valueBy_of_formula ht hft] at hv
    have hcircular : ∀ b, f b ≠ some (.error .circular) := fun b hb => (hf b _ hb).2 rfl
    exact ⟨hfree.fresh_of_formula hf ht hft hv, fun heq =>
      Formula.evaluate_ne_circular hcircular text (heq ▸ hv)⟩

/-- No cell reads back. -/
theorem not_readsBack : ¬ s.ReadsBack a b := by
  intro h
  obtain ⟨v, hv⟩ := Option.isSome_iff_exists.mp h.plain
  obtain ⟨text, ht, hb⟩ := h.reads
  have hformula : (Content.ofText text).isFormula = true :=
    isFormula_eq ht ▸ h.edge.1.isFormula
  have hsome : (Formula.evaluate s.plainValue? text).isSome := by
    rw [← plainValue?_of_formula ht hformula, hv]
    rfl
  -- Begun at the cell that is read, a resolution finds the cell circular.
  obtain ⟨read, hfresh, hcircular, hreads⟩ := hfree.explained_reads
    (fun _ _ => hfree.fresh_of_plainValue?) h.formula h.back ht hformula hsome
  have hvalue := Formula.valueUnder_eq_circular
    (fun c hc => (hreads c hc).imp_left And.left) ⟨b, hb, hcircular⟩
  rw [hfree.fresh_of_plainValue? hv, hvalue] at hfresh
  exact s.plainValue?_ne_circular a (hfresh ▸ hv)

end HistoryFree

/-- The history of queries never matters exactly if the evaluation of no cell reads back. -/
theorem historyFree_iff (s : Sheet) : s.HistoryFree ↔ ¬ ∃ a b, s.ReadsBack a b := by
  constructor
  · rintro hfree ⟨a, b, h⟩
    exact hfree.not_readsBack h
  · intro h queries
    have hsteady : ∀ a, s.Steady a := fun a b _ c hback => h ⟨b, c, hback⟩
    rw [answers_settled (Settled.empty s) fun q _ a _ => hsteady a]
    exact List.map_congr_left fun q _ => (Query.fresh_of_steady fun a _ => hsteady a).symm

/-- The first of two cells mentions the second behind a missing one and never reads it. The
second reads back, and whether it is found circular depends on which cell is asked for first. -/
theorem not_historyFree_behind_missing :
    ¬ (Sheet.ofList [(⟨0, 0⟩, "=(Z9+B1)"), (⟨0, 1⟩, "=(A1)")]).HistoryFree := by
  intro hfree
  generalize hs : Sheet.ofList [(⟨0, 0⟩, "=(Z9+B1)"), (⟨0, 1⟩, "=(A1)")] = s at hfree
  have hfirst : s.text? ⟨0, 0⟩ = some "=(Z9+B1)" := by subst hs; decide
  have hsecond : s.text? ⟨0, 1⟩ = some "=(A1)" := by subst hs; decide
  have htree : Formula.tree? "=(A1)" = some (.cell "A1") := by decide +kernel
  have hA : Address.parse? "A1" = some ⟨0, 0⟩ := by decide
  have hmentions : ⟨0, 1⟩ ∈ s.references ⟨0, 0⟩ := by subst hs; decide +kernel
  have hknown : s.tabulates [(⟨0, 1⟩, .error .missing), (⟨0, 0⟩, .error .missing),
      (⟨8, 25⟩, .error .missing)] = true := by subst hs; decide +kernel
  have hplain : s.plainValue? ⟨0, 1⟩ = some (.error .missing) :=
    plainValue?_of_tabulates hknown List.mem_cons_self
  refine hfree.not_readsBack (a := ⟨0, 1⟩) (b := ⟨0, 0⟩) ⟨?_, ⟨"=(A1)", hsecond, ?_⟩, ?_, ?_⟩
  · rw [hplain]
    rfl
  · simp only [Formula.reads, htree, Formula.Expr.reads, hA, Option.toList_some]
    exact List.mem_singleton_self _
  · exact isFormula_iff.mpr ⟨_, hfirst, by decide⟩
  · exact .single ⟨hmentions, by rw [hsecond]; rfl⟩

end Sheet

end Spreadsheet
