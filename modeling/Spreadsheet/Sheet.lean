import Spreadsheet.Address
import Spreadsheet.Content
import Std.Data.ExtTreeMap
import Std.Data.ExtTreeSet

/-!
# Sheets

A sheet is what an evaluation sees: finitely many cells, each with its raw text. Searches over
a sheet end because they mark cells and there are only finitely many to mark; `Sheet.unmarked`
counts those that are left.
-/

namespace Spreadsheet

/-- Fewer elements of a list satisfy a stronger condition when one of them tells the two
apart. -/
theorem countP_lt_countP {α : Type} {p q : α → Bool} {a : α} :
    ∀ {l : List α}, (∀ b, q b = true → p b = true) → a ∈ l → p a = true → q a = false →
      l.countP q < l.countP p
  | [], _, ha, _, _ => by simp at ha
  | b :: l, hqp, ha, hp, hq => by
    have hle : l.countP q ≤ l.countP p := List.countP_mono_left fun b _ => hqp b
    rcases List.mem_cons.1 ha with rfl | hl
    · simp only [List.countP_cons, hp, hq, if_true, Bool.false_eq_true, if_false]
      omega
    · have hlt := countP_lt_countP hqp hl hp hq
      simp only [List.countP_cons]
      cases hb : q b with
      | false => simp; omega
      | true => simp [hqp b hb, hlt]

/-- A finite set of addresses, listed row by row. -/
abbrev AddressSet := Std.ExtTreeSet Address

/-- The raw texts of finitely many cells. -/
structure Sheet where
  /-- The raw text of each cell. -/
  texts : Std.ExtTreeMap Address String

namespace Sheet

/-- The sheet of a list of cells, a later text of a cell replacing an earlier one. -/
def ofList (cells : List (Address × String)) : Sheet where
  texts := cells.foldl (fun texts (a, text) => texts.insert a text) ∅

/-- The raw text of a cell, if the cell is there. -/
def text? (s : Sheet) (a : Address) : Option String := s.texts[a]?

/-- Whether a cell is there and holds a formula. -/
def isFormula (s : Sheet) (a : Address) : Bool :=
  match s.text? a with
  | some text => (Content.ofText text).isFormula
  | none => false

/-- A cell that holds a formula is there. -/
theorem isSome_of_isFormula {s : Sheet} {a : Address} (h : s.isFormula a = true) :
    (s.text? a).isSome := by
  unfold isFormula at h
  split at h
  · rename_i text ht
    simp [ht]
  · simp at h

/-- How many cells of a sheet do not carry a mark. -/
def unmarked (s : Sheet) (mark : Address → Bool) : Nat := s.texts.keys.countP fun a => !mark a

/-- Marking more cells leaves no more of them unmarked. -/
theorem unmarked_mono (s : Sheet) {mark mark' : Address → Bool}
    (h : ∀ a, mark a = true → mark' a = true) : s.unmarked mark' ≤ s.unmarked mark := by
  refine List.countP_mono_left fun a _ hm => ?_
  cases ha : mark a with
  | false => rfl
  | true => simp [h a ha] at hm

/-- Marking one more cell of the sheet leaves fewer of them unmarked. -/
theorem unmarked_lt (s : Sheet) {mark mark' : Address → Bool} {a : Address}
    (h : ∀ a, mark a = true → mark' a = true) (ha : (s.text? a).isSome) (hold : mark a = false)
    (hnew : mark' a = true) : s.unmarked mark' < s.unmarked mark := by
  have hmem : a ∈ s.texts := by
    rw [Std.ExtTreeMap.mem_iff_isSome_getElem?]
    exact ha
  refine countP_lt_countP (fun b hb => ?_) (Std.ExtTreeMap.mem_keys.2 hmem) (by simp [hold])
    (by simp [hnew])
  cases hm : mark b with
  | false => rfl
  | true => simp [h b hm] at hb

end Sheet

end Spreadsheet
