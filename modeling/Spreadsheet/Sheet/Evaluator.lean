import Spreadsheet.Formula.Evaluation
import Spreadsheet.Sheet.Cycle

/-!
# Evaluating the cells of a sheet

The value of a formula cell is worked out once and remembered. A resolution settles a cell and
the formula cells it mentions, directly or not, the mentioned ones first: a trail holds the
cells that wait for their references, and the innermost one is evaluated when none of its
references is left. By then every cell it reads is settled, is still on the trail and so part
of a circle, or holds no formula.
-/

namespace Spreadsheet

/-- The values of the formula cells that are settled. -/
abbrev Memo := Std.ExtTreeMap Address Value

/-- The value of a cell that holds no formula: a number, or an error if it writes none. -/
def Content.value (content : Content) : Value :=
  match content.number? with
  | some x => .number x
  | none => .error .invalid

/-- A resolution under way: what is settled, and the trail of cells that are not. -/
structure Resolution where
  /-- The values of the settled cells. -/
  memo : Memo
  /-- The cells on the trail. -/
  resolving : AddressSet
  /-- The innermost cell of the trail. -/
  top : Frame
  /-- The cells around it, from the inside out. -/
  outer : List Frame

namespace Resolution

/-- Whether a cell is settled or on the trail, so that it is not started on again. -/
def taken (r : Resolution) (a : Address) : Bool := r.memo.contains a || r.resolving.contains a

/-- What one step of a resolution leads to. -/
inductive Outcome where
  /-- The outermost cell is settled: its value, and all that is settled now. -/
  | settled (value : Value) (memo : Memo)
  /-- There is more to resolve. -/
  | running (r : Resolution)

/-- The value of a cell as a formula sees it within a resolution. -/
def read (s : Sheet) (r : Resolution) (a : Address) : Value :=
  match r.memo[a]? with
  | some value => value
  | none =>
    if a ∈ r.resolving then .error .circular
    else match s.text? a with
      | none => .error .missing
      | some text => (Content.ofText text).value

/-- The value of the innermost cell, its references read as they stand. -/
def topValue (s : Sheet) (r : Resolution) : Value :=
  Id.run (Formula.evaluate (fun a => pure (r.read s a)) ((s.text? r.top.cell).getD ""))

/-- One step: follow a reference of the innermost cell, or settle the cell if none is left. -/
def step (s : Sheet) (r : Resolution) : Outcome :=
  match r.top.left with
  | a :: left =>
    let top : Frame := ⟨r.top.cell, left⟩
    if r.taken a || !s.isFormula a then .running { r with top }
    else .running ⟨r.memo, r.resolving.insert a, ⟨a, s.references a⟩, top :: r.outer⟩
  | [] =>
    let value := r.topValue s
    let memo := r.memo.insert r.top.cell value
    match r.outer with
    | [] => .settled value memo
    | top :: outer => .running ⟨memo, r.resolving.erase r.top.cell, top, outer⟩

/-- How much a resolution has left to do: cells to start on first, references to follow
second. -/
def measure (s : Sheet) (r : Resolution) : Nat × Nat :=
  (s.unmarked r.taken, Frame.work (r.top :: r.outer))

/-- A cell that is settled stays taken. -/
private theorem taken_settle {r : Resolution} {value : Value} {top : Frame} {outer : List Frame}
    {a : Address} (h : r.taken a = true) :
    Resolution.taken ⟨r.memo.insert r.top.cell value, r.resolving.erase r.top.cell, top, outer⟩ a =
      true := by
  simp only [taken, Bool.or_eq_true, ← Std.ExtTreeMap.mem_iff_contains,
    ← Std.ExtTreeSet.mem_iff_contains, Std.ExtTreeMap.mem_insert, Std.ExtTreeSet.mem_erase] at h ⊢
  by_cases he : compare r.top.cell a = .eq
  · exact .inl (.inl he)
  · rcases h with h | h
    · exact .inl (.inr h)
    · exact .inr ⟨he, h⟩

/-- Every step leaves less to do. -/
theorem measure_step {s : Sheet} {r r' : Resolution} (h : r.step s = .running r') :
    Prod.Lex (· < ·) (· < ·) (measure s r') (measure s r) := by
  unfold step at h
  split at h
  · rename_i a left hleft
    split at h
    · cases h
      refine Prod.Lex.right _ ?_
      simp [Frame.work_cons, hleft]
    · rename_i hnew
      cases h
      simp only [Bool.or_eq_true, Bool.not_eq_true', not_or, Bool.not_eq_true,
        Bool.not_eq_false] at hnew
      refine Prod.Lex.left _ _ (s.unmarked_lt (a := a) (fun b hb => ?_) ?_ hnew.1 ?_)
      · simp only [taken, Bool.or_eq_true, ← Std.ExtTreeSet.mem_iff_contains,
          Std.ExtTreeSet.mem_insert] at hb ⊢
        exact hb.imp id .inr
      · exact Sheet.isSome_of_isFormula hnew.2
      · simp [taken]
  · split at h
    · simp at h
    · rename_i hleft _ top outer houter
      cases h
      have hle : s.unmarked (Resolution.taken ⟨r.memo.insert r.top.cell (r.topValue s),
          r.resolving.erase r.top.cell, top, outer⟩) ≤ s.unmarked r.taken :=
        s.unmarked_mono fun a ha => taken_settle ha
      rcases Nat.lt_or_eq_of_le hle with hlt | heq
      · exact Prod.Lex.left _ _ hlt
      · simp only [measure, heq]
        refine Prod.Lex.right _ ?_
        simp [Frame.work_cons, houter]

/-- Step until the outermost cell is settled. -/
def run (s : Sheet) (r : Resolution) : Value × Memo :=
  match _h : r.step s with
  | .settled value memo => (value, memo)
  | .running r' => run s r'
termination_by measure s r
decreasing_by exact measure_step _h

/-- The resolution of one formula cell, begun with what is settled already. -/
def start (s : Sheet) (memo : Memo) (a : Address) : Resolution :=
  ⟨memo, {a}, ⟨a, s.references a⟩, []⟩

end Resolution

namespace Sheet

/-- The value of a cell as a formula sees it: what is settled is looked up, a formula is
resolved and remembered. -/
def cellValue (s : Sheet) (a : Address) : StateM Memo Value := fun memo =>
  match memo[a]? with
  | some value => (value, memo)
  | none =>
    match s.text? a with
    | none => (.error .missing, memo)
    | some text =>
      match Content.ofText text with
      | .formula _ => (Resolution.start s memo a).run s
      | content => (content.value, memo)

/-- The value of a raw text as a formula over the sheet. -/
def evaluate (s : Sheet) (text : String) : StateM Memo Value :=
  Formula.evaluate s.cellValue text

/-- The value of a raw text as a formula over the sheet, with nothing settled before. -/
def value (s : Sheet) (text : String) : Value := (s.evaluate text ∅).1

end Sheet

end Spreadsheet
