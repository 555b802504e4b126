import Mathlib.Data.Option.Basic
import Spreadsheet.Proofs.Sheet.Settling

/-!
# Queries that share a memo

A sheet is asked for the values of cells and of formulas, one after another, and the cells that
are settled on the way serve the later queries. Queries from which no circle can be reached are
answered with the plain values, whatever was asked before. On a sheet with circles a query may be
answered with a value that depends on what was asked before; this happens exactly if the
evaluation of some cell reads back.
-/

namespace Spreadsheet

open Relation

/-- A question for a value. -/
inductive Query where
  /-- The value of a raw text as a formula. -/
  | formula (text : String)
  /-- The value of a cell as a formula sees it. -/
  | cell (a : Address)
  deriving DecidableEq, Repr

namespace Query

variable {s : Sheet} {q : Query}

/-- The cells at which a query starts. -/
def starts : Query → List Address
  | .formula text => Formula.references text
  | .cell a => [a]

/-- The answer to a query with what is settled already. -/
def ask (s : Sheet) : Query → StateM Memo Value
  | .formula text => s.evaluate text
  | .cell a => s.cellValue a

/-- The answer to a query with nothing settled before. -/
def fresh (s : Sheet) (q : Query) : Value := (q.ask s ∅).1

/-- The answer to a query by plain recursion, if the recursion ends. -/
def plain? (s : Sheet) : Query → Option Value
  | .formula text => Formula.plainValue s.plainValue? text
  | .cell a => s.plainValue? a

/-- The answer to a query under the settled values. -/
def settledValue (s : Sheet) : Query → Value
  | .formula text => Formula.valueUnder s.settledValue text
  | .cell a => s.settledValue a

/-- Without a circle in the way a query is answered with the settled value, and all stays settled.
-/
theorem ask_settled {memo : Memo} (hmemo : s.Settled memo) (h : ∀ a ∈ q.starts, s.Steady a) :
    (q.ask s memo).1 = q.settledValue s ∧ s.Settled (q.ask s memo).2 := by
  cases q with
  | formula text => exact Sheet.evaluate_settled hmemo h
  | cell a => exact Sheet.cellValue_settled hmemo (h a (List.mem_singleton_self a))

/-- Without a circle in the way the fresh answer is the settled value. -/
theorem fresh_of_steady (h : ∀ a ∈ q.starts, s.Steady a) : q.fresh s = q.settledValue s :=
  (ask_settled (Sheet.Settled.empty s) h).1

/-- The fresh answer for a steady cell is its settled value. -/
theorem fresh_cell {a : Address} (h : s.Steady a) : fresh s (.cell a) = s.settledValue a :=
  (Sheet.cellValue_settled (Sheet.Settled.empty s) h).1

/-- The fresh answer for a grounded cell is its plain value. -/
theorem fresh_of_grounded {a : Address} {v : Value} (h : s.Grounded a)
    (ha : s.plainValue? a = some v) : fresh s (.cell a) = v := by
  rw [fresh_cell h.steady, Sheet.settledValue_of_plainValue? ha]

/-- Without a circle in reach the answer by plain recursion is the one under settled values. -/
theorem plain?_eq_settledValue (h : ∀ a ∈ q.starts, s.Grounded a) :
    q.plain? s = some (q.settledValue s) := by
  cases q with
  | formula text =>
    rw [plain?, Formula.plainValue_eq_evaluate]
    exact Sheet.evaluate_plainValue? fun a ha =>
      Sheet.plainValue?_eq_settledValue (h a ha).plainValue?
  | cell a =>
    exact Sheet.plainValue?_eq_settledValue (h a (List.mem_singleton_self a)).plainValue?

/-- Plain recursion answers no query with a circular reference. -/
theorem plain?_ne_circular (s : Sheet) (q : Query) : q.plain? s ≠ some (.error .circular) := by
  cases q with
  | formula text =>
    rw [plain?, Formula.plainValue_eq_evaluate]
    exact Formula.evaluate_ne_circular s.plainValue?_ne_circular text
  | cell a => exact s.plainValue?_ne_circular a

end Query

namespace Sheet

variable {s : Sheet} {a b : Address} {queries : List Query}

/-- The answers to a list of queries, in order, what is settled passed on from each to the
next. -/
def answers (s : Sheet) : List Query → Memo → List Value
  | [], _ => []
  | q :: queries, memo => (q.ask s memo).1 :: s.answers queries (q.ask s memo).2

/-- What is settled when a list of queries has been answered. -/
def memoAfter (s : Sheet) : List Query → Memo → Memo
  | [], memo => memo
  | q :: queries, memo => s.memoAfter queries (q.ask s memo).2

/-- Without a circle in the way all answers are settled values. -/
theorem answers_settled {memo : Memo} (hmemo : s.Settled memo)
    (h : ∀ q ∈ queries, ∀ a ∈ q.starts, s.Steady a) :
    s.answers queries memo = queries.map (Query.settledValue s) := by
  induction queries generalizing memo with
  | nil => rfl
  | cons q queries ih =>
    obtain ⟨hvalue, hmemo'⟩ := Query.ask_settled hmemo (h q List.mem_cons_self)
    rw [answers, hvalue, ih hmemo' fun q hq => h q (List.mem_cons_of_mem _ hq), List.map_cons]

/-- Queries from which no circle can be reached are all answered as plain recursion answers
them, and never with a circular reference. -/
theorem answers_eq_plain (h : ∀ q ∈ queries, ∀ a ∈ q.starts, ¬ s.Circular a) :
    (s.answers queries ∅).map some = queries.map (Query.plain? s) ∧
      .error .circular ∉ s.answers queries ∅ := by
  have hgrounded : ∀ q ∈ queries, ∀ a ∈ q.starts, s.Grounded a :=
    fun q hq a ha => grounded_iff.mpr (h q hq a ha)
  have hanswers := answers_settled (Settled.empty s)
    fun q hq a ha => (hgrounded q hq a ha).steady
  have hplain : (s.answers queries ∅).map some = queries.map (Query.plain? s) := by
    rw [hanswers, List.map_map]
    exact List.map_congr_left fun q hq => (Query.plain?_eq_settledValue (hgrounded q hq)).symm
  refine ⟨hplain, fun hmem => ?_⟩
  obtain ⟨q, _, hq⟩ := List.mem_map.mp (hplain ▸ List.mem_map_of_mem hmem)
  exact q.plain?_ne_circular s hq

/-- A chain of cells, asked for from a formula and then one after another: a formula that reads a
literal and a blank cell, one that comes upon a missing cell before a text that is no number, and
a number that is out of range. -/
theorem answers_eq_plain_chain :
    let s := Sheet.ofList [(⟨0, 0⟩, "=(B1+C1)"), (⟨0, 1⟩, " 2 "), (⟨0, 2⟩, " "), (⟨0, 3⟩, "two"),
      (⟨0, 4⟩, "=(Z9*D1)"), (⟨0, 5⟩, "1e999")]
    let queries : List Query := [.formula "=(A1)", .cell ⟨0, 0⟩, .cell ⟨0, 1⟩, .cell ⟨0, 2⟩,
      .cell ⟨0, 3⟩, .cell ⟨0, 4⟩, .cell ⟨0, 5⟩, .formula "=(A1+)"]
    (s.answers queries ∅).map some = queries.map (Query.plain? s) ∧
      s.answers queries ∅ = [.number 2, .number 2, .number 2, .number 0, .error .invalid,
        .error .missing, .error .invalid, .error .invalid] := by
  intro s queries
  let known : List (Address × Value) := [(⟨0, 0⟩, .number 2), (⟨0, 4⟩, .error .missing),
    (⟨0, 1⟩, .number 2), (⟨0, 2⟩, .number 0), (⟨0, 3⟩, .error .invalid),
    (⟨0, 5⟩, .error .invalid), (⟨8, 25⟩, .error .missing)]
  have hknown : s.tabulates known = true := by decide +kernel
  have hcell : ∀ a v, (a, v) ∈ known → Query.plain? s (.cell a) = some v :=
    fun a v => plainValue?_of_tabulates hknown
  have hformula : ∀ text v, Formula.evaluate (List.lookup · known) text = some v →
      Query.plain? s (.formula text) = some v := by
    intro text v hv
    rw [Query.plain?, Formula.plainValue_eq_evaluate]
    exact Formula.evaluate_mono
      (fun b _ w hw => plainValue?_of_tabulates hknown (mem_of_lookup hw)) hv
  have hcircular : ∀ q ∈ queries, ∀ a ∈ q.starts, ¬ s.Circular a := by
    have hflat : ∀ q ∈ queries, ∀ a ∈ q.starts, ∀ b ∈ s.references a, s.isFormula b = false := by
      decide +kernel
    exact fun q hq a ha => (grounded_of_not_formulas (hflat q hq a ha)).not_circular
  have hanswers := (answers_eq_plain hcircular).1
  refine ⟨hanswers, List.map_injective_iff.mpr (Option.some_injective _) (hanswers.trans ?_)⟩
  simp only [queries, List.map_cons, List.map_nil,
    hformula "=(A1)" (.number 2) (by decide +kernel),
    hformula "=(A1+)" (.error .invalid) (by decide +kernel),
    hcell ⟨0, 0⟩ (.number 2) (by decide +kernel), hcell ⟨0, 1⟩ (.number 2) (by decide +kernel),
    hcell ⟨0, 2⟩ (.number 0) (by decide +kernel),
    hcell ⟨0, 3⟩ (.error .invalid) (by decide +kernel),
    hcell ⟨0, 4⟩ (.error .missing) (by decide +kernel),
    hcell ⟨0, 5⟩ (.error .invalid) (by decide +kernel)]

end Sheet

end Spreadsheet
