import Spreadsheet.Proofs.Grid.Incremental
import Spreadsheet.Proofs.Sheet.Derivation

/-!
# Values behind the check for circles

A formula is checked for circles before it is evaluated, and the check goes by the cells that the
text mentions, not by those that the tree names. The two differ in the exponents of numbers alone:
`=1E5` mentions the cell `E5`, which no evaluation of it reads. So the check hides the value of a
formula exactly if, on the way along names, an exponent is written like the name of a circular
cell.
-/

namespace Spreadsheet

open Relation

namespace Sheet

variable {s : Sheet} {a b : Address} {v : Value}

/-- An exponent in the formula of a cell is written like the name of a cell. -/
def ExponentNames (s : Sheet) (a b : Address) : Prop :=
  ∃ text, s.text? a = some text ∧ (Content.ofText text).isFormula = true ∧
    Formula.ExponentNames text b

/-- The check takes an exponent for a mention. -/
theorem ExponentNames.mentions (h : s.ExponentNames a b) : s.Mentions a b := by
  obtain ⟨text, ht, hformula, hb⟩ := h
  rw [Mentions, references_eq ht]
  exact hb.mem_references hformula

/-- A circular cell has an edge to a circular cell. -/
theorem Circular.exists_edge (h : s.Circular a) : ∃ b, s.Edge a b ∧ s.Circular b := by
  obtain ⟨c, hac, hcircle⟩ := h
  rcases ReflTransGen.cases_head hac with rfl | ⟨b, hab, hbc⟩
  · obtain ⟨b, hab, hba⟩ := TransGen.head'_iff.mp hcircle
    exact ⟨b, hab, a, hba, hcircle⟩
  · exact ⟨b, hab, c, hbc, hcircle⟩

/-- A cell with a value mentions the cells that its tree names, and besides them only those that
its exponents are written like. -/
theorem Derives.uses_or_exponentNames (h : s.Derives (.cell a) v) (hab : s.Mentions a b) :
    s.Uses a b ∨ s.ExponentNames a b := by
  obtain ⟨text, ht, hformula⟩ := isFormula_iff.mp hab.isFormula
  cases h.formula_of_cell ht hformula with
  | formula he hv =>
    rw [Mentions, references_eq ht, Formula.mem_references_iff_of_tree? he] at hab
    exact hab.imp (fun hnames => ⟨text, ht, _, he, hnames⟩) fun hb => ⟨text, ht, hformula, hb⟩

/-- A cell that the tree of a cell with a value names is there, with a value of its own. -/
theorem Derives.edge_of_uses (h : s.Derives (.cell a) v) (hab : s.Uses a b) :
    s.Edge a b ∧ ∃ w, s.Derives (.cell b) w := by
  obtain ⟨text, ht, hnames⟩ := hab
  obtain ⟨e, he, name, hname, hp⟩ := id hnames
  have hformula := Formula.isFormula_of_tree? he
  obtain ⟨w, hw⟩ := (h.formula_of_cell ht hformula).exists_of_names hnames
  refine ⟨⟨?_, ?_⟩, w, hw⟩
  · rw [Mentions, references_eq ht]
    exact Formula.mem_references_of_tree? he hname hp
  · cases hw with
    | content ht' _ => simp [ht']
    | cell ht' _ => simp [ht']

/-- A way along names from a cell with a value is one along edges. -/
theorem Derives.edges_of_uses (h : s.Derives (.cell a) v) (hab : ReflTransGen s.Uses a b) :
    ReflTransGen s.Edge a b := by
  induction hab using ReflTransGen.head_induction_on generalizing v with
  | refl => exact .refl
  | head hac _ ih =>
    obtain ⟨hedge, w, hw⟩ := h.edge_of_uses hac
    exact .head hedge (ih hw)

/-- A cell with a value is circular exactly if it leads along names to a formula with an exponent
that is written like the name of a circular cell. -/
theorem Derives.circular_iff (h : s.Derives (.cell a) v) :
    s.Circular a ↔ ∃ b c, ReflTransGen s.Uses a b ∧ s.ExponentNames b c ∧
      (s.text? c).isSome ∧ s.Circular c := by
  constructor
  · -- Along names every way ends, so that some mention on the way to the circle is no name.
    have hacc := h.acc a rfl
    induction hacc generalizing v with
    | intro a _ ih =>
      intro ha
      obtain ⟨c, hac, hc⟩ := ha.exists_edge
      rcases h.uses_or_exponentNames hac.1 with huses | hexponent
      · obtain ⟨_, w, hw⟩ := h.edge_of_uses huses
        obtain ⟨b, d, hcb, hd⟩ := ih c huses hw hc
        exact ⟨b, d, .head huses hcb, hd⟩
      · exact ⟨a, c, .refl, hexponent, hac.2, hc⟩
  · rintro ⟨b, c, hab, hexponent, hthere, hc⟩
    exact .of_edges ((h.edges_of_uses hab).tail ⟨hexponent.mentions, hthere⟩) hc

/-- A value that a query finds with nothing settled before has a derivation. -/
theorem derives_fresh (h : (Query.fresh s (.cell a)).isOk = true) :
    s.Derives (.cell a) (Query.fresh s (.cell a)) :=
  ((Backed.empty s).ask (.cell a)).1 h

/-- What is left to decide for a formula with a value is whether its cell is circular. -/
theorem outcome_of_isOk {text : String} (ht : s.text? a = some text)
    (hformula : (Content.ofText text).isFormula = true)
    (hok : (Query.fresh s (.cell a)).isOk = true) :
    s.outcome a text =
      if s.Circular a then .failed .circular ErrorCode.circular.description
      else .clean (Query.fresh s (.cell a)).display := by
  have hshape : Formula.Shape.fault? text = none := by
    cases (derives_fresh hok).formula_of_cell ht hformula with
    | formula he _ =>
      obtain ⟨_, _, hshape, _⟩ := Formula.tree?_eq_some_iff.mp he
      exact Option.isNone_iff_eq_none.mp hshape
  unfold outcome
  cases hc : Content.ofText text with
  | empty => simp [hc, Content.isFormula] at hformula
  | literal kept => simp [hc, Content.isFormula] at hformula
  | formula kept =>
    obtain rfl : kept = text := Content.text?_ofText (by rw [hc]; rfl)
    simp only [hshape]
    split
    · rfl
    · cases hv : Query.fresh s (.cell a) with
      | error code => simp [hv, Value.isOk] at hok
      | number x => rfl
      | boolean t => rfl

end Sheet

namespace Grid

variable {g : Grid} {a : Address}

/-- If the formula of a cell has a value with nothing settled before and no check in front, the
check for circles lets it pass, and after a full recalculation the cell shows the value. -/
def ShowsValue (g : Grid) (a : Address) : Prop :=
  g.sheet.isFormula a = true → (Query.fresh g.sheet (.cell a)).isOk = true →
    g.sheet.hasCycle a = false ∧ g.recalculateAll.cell? a =
      (g.cell? a).map (Cell.showing · (.clean (Query.fresh g.sheet (.cell a)).display))

/-- After a full recalculation a formula's cell with a value shows it, or a circular reference. -/
theorem cell?_recalculateAll_of_isOk (hformula : g.sheet.isFormula a = true)
    (hok : (Query.fresh g.sheet (.cell a)).isOk = true) :
    g.recalculateAll.cell? a = (g.cell? a).map (Cell.showing · (
      if g.sheet.Circular a then .failed .circular ErrorCode.circular.description
      else .clean (Query.fresh g.sheet (.cell a)).display)) := by
  rw [cell?_recalculateAll]
  cases hcell : g.cell? a with
  | none => rfl
  | some cell =>
    have ht : g.sheet.text? a = some cell.text := by rw [text?_sheet, hcell]; rfl
    rw [Sheet.isFormula_eq ht] at hformula
    rw [Option.map_some, Option.map_some, Sheet.outcome_of_isOk ht hformula hok]

/-- Only circles keep a cell from showing its value. -/
theorem showsValue_iff_not_circular :
    g.ShowsValue a ↔ (g.sheet.isFormula a = true →
      (Query.fresh g.sheet (.cell a)).isOk = true → ¬ g.sheet.Circular a) := by
  constructor
  · intro h hformula hok hcircular
    obtain ⟨hpass, _⟩ := h hformula hok
    rw [Sheet.hasCycle_iff.mpr hcircular] at hpass
    cases hpass
  · intro h hformula hok
    have hcircular := h hformula hok
    refine ⟨Bool.eq_false_iff.mpr (mt Sheet.hasCycle_iff.mp hcircular), ?_⟩
    rw [cell?_recalculateAll_of_isOk hformula hok, if_neg hcircular]

/-- A cell shows the value of its formula, unless on the way from it along names an exponent is
written like the name of a circular cell. Then it shows a circular reference instead. -/
theorem showsValue_iff (g : Grid) (a : Address) :
    (g.ShowsValue a ↔
      (g.sheet.isFormula a = true → (Query.fresh g.sheet (.cell a)).isOk = true →
        ¬ ∃ b c, ReflTransGen g.sheet.Uses a b ∧ g.sheet.ExponentNames b c ∧
          (g.sheet.text? c).isSome ∧ g.sheet.Circular c)) ∧
    (¬ g.ShowsValue a → g.recalculateAll.cell? a =
      (g.cell? a).map (Cell.showing · (.failed .circular "circular reference"))) := by
  constructor
  · rw [showsValue_iff_not_circular]
    refine forall₂_congr fun _ hok => not_congr ?_
    exact (Sheet.derives_fresh hok).circular_iff
  · intro h
    rw [showsValue_iff_not_circular] at h
    push Not at h
    obtain ⟨hformula, hok, hcircular⟩ := h
    rw [cell?_recalculateAll_of_isOk hformula hok, if_pos hcircular]
    rfl

/-- A cell with the number ten, whose exponent is written like the name of the cell itself. -/
theorem not_showsValue_exponent :
    ∃ g, Grid.ofRows [["", "", "", "", "=1E1"]] = .ok g ∧ g.sheet.isFormula ⟨0, 4⟩ = true ∧
      Query.fresh g.sheet (.cell ⟨0, 4⟩) = .number 10 ∧ g.sheet.hasCycle ⟨0, 4⟩ = true ∧
      ¬ g.ShowsValue ⟨0, 4⟩ := by
  obtain ⟨g, hg, ht, hknown⟩ : ∃ g, Grid.ofRows [["", "", "", "", "=1E1"]] = .ok g ∧
      g.sheet.text? ⟨0, 4⟩ = some "=1E1" ∧
      g.sheet.tabulates [(⟨0, 4⟩, .number 10)] = true := ⟨_, rfl, by decide, by decide +kernel⟩
  have hformula : g.sheet.isFormula ⟨0, 4⟩ = true := Sheet.isFormula_eq ht
  have hreferences : g.sheet.references ⟨0, 4⟩ = [⟨0, 4⟩] := by
    rw [Sheet.references_eq ht]
    decide +kernel
  have hvalue : Query.fresh g.sheet (.cell ⟨0, 4⟩) = .number 10 := by
    have htree : Formula.tree? "=1E1" = some (.number 10) := by decide +kernel
    -- The cell leads to itself only, and its evaluation reads no cell.
    have hstays : ∀ b, ReflTransGen g.sheet.Edge ⟨0, 4⟩ b → b = ⟨0, 4⟩ := by
      intro b hb
      induction hb with
      | refl => rfl
      | tail _ hedge ih =>
        rw [ih, Sheet.Edge, Sheet.Mentions, hreferences] at hedge
        exact List.mem_singleton.mp hedge.1
    have hsteady : g.sheet.Steady ⟨0, 4⟩ := by
      intro b hb c hback
      obtain rfl := hstays b hb
      obtain ⟨text, ht', hreads⟩ := hback.reads
      obtain rfl := Option.some.inj (ht.symm.trans ht')
      simp [Formula.reads, htree, Formula.Expr.reads] at hreads
    rw [Query.fresh_cell hsteady, Sheet.settledValue_of_plainValue?
      (Sheet.plainValue?_of_tabulates hknown List.mem_cons_self)]
  have hcycle : g.sheet.hasCycle ⟨0, 4⟩ = true := by
    have hedge : g.sheet.Edge ⟨0, 4⟩ ⟨0, 4⟩ := by
      refine ⟨?_, by rw [ht]; rfl⟩
      rw [Sheet.Mentions, hreferences]
      exact List.mem_singleton_self _
    exact Sheet.hasCycle_iff.mpr ⟨⟨0, 4⟩, .refl, .single hedge⟩
  refine ⟨g, hg, hformula, hvalue, hcycle, fun hshows => ?_⟩
  obtain ⟨hpass, _⟩ := hshows hformula (by rw [hvalue]; rfl)
  rw [hcycle] at hpass
  cases hpass

end Grid

end Spreadsheet
