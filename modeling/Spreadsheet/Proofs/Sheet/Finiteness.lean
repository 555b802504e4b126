import Spreadsheet.Proofs.Formula.Printing
import Spreadsheet.Proofs.Number.Successor
import Spreadsheet.Proofs.Sheet.Derivation

/-!
# Values are finite

Every number that is derived from the raw texts of a sheet is finite. Numerals that stand for no
finite number are refused, in cells as in formulas; so are results of operators that are not
finite, and one more or less than a finite number is finite.
-/

namespace Spreadsheet

theorem Numeral.isFinite_of_value? {n : Numeral} {negative : Bool} {x : Float}
    (h : n.value? negative = some x) : x.isFinite = true := by
  simp only [value?] at h
  split at h
  · obtain rfl := Option.some.inj h
    assumption
  · cases h

/-- A text that is read as a number is read as a finite one. -/
theorem Numeral.isFinite_of_read? {text : List Char} {x : Float} (h : read? text = some x) :
    x.isFinite = true := by
  unfold read? at h
  split at h
  split at h
  · exact isFinite_of_value? h
  · cases h

/-- The number of a text that holds no formula is finite. -/
theorem Content.isFinite_of_number? {content : Content} {x : Float}
    (h : content.number? = some x) : x.isFinite = true := by
  cases content with
  | empty =>
    obtain rfl := Option.some.inj h
    decide +kernel
  | literal text => exact Numeral.isFinite_of_read? h
  | formula text => cases h

namespace Formula

variable {e : Expr} {x : Float}

/-- The numbers in the tree of a phrase are among its tokens. -/
theorem Phrase.mem_of_mem_numbers {tier : Tier} {tokens : List Token}
    (h : Phrase tier tokens e) (hx : x ∈ e.numbers) : Token.number x ∈ tokens := by
  induction h with
  | number value =>
    rw [List.mem_singleton.mp hx]
    exact List.mem_singleton_self _
  | cell name => cases hx
  | group inside ih => simp [ih hx]
  | call f argument ih => simp [ih hx]
  | ofOperand h ih => exact ih hx
  | ofProduct h ih => exact ih hx
  | ofSum h ih => exact ih hx
  | product op hl hr ihl ihr | sum op hl hr ihl ihr | comparison op hl hr ihl ihr =>
    rcases List.mem_append.mp hx with hx | hx
    · exact List.mem_append_left _ (ihl hx)
    · exact List.mem_append_right _ (List.mem_cons_of_mem _ (ihr hx))

/-- The numbers among the tokens of a text are finite. -/
theorem Token.Spelt.isFinite {operand : Bool} {tokens : List Token} {ink : List Char}
    (h : Spelt operand tokens ink) (hx : Token.number x ∈ tokens) : x.isFinite = true := by
  induction h with
  | nil => cases hx
  | cons hw hminus h ih =>
    rcases List.mem_cons.mp hx with rfl | hx
    · cases hw with
      | number hl => exact Numeral.isFinite_of_value? hl.value
    · exact ih hx

/-- The numbers in the tree of a text are finite. -/
theorem isFinite_of_tree? {text : String} (h : tree? text = some e) (hx : x ∈ e.numbers) :
    x.isFinite = true := by
  obtain ⟨body, _, _, hparse⟩ := tree?_eq_some_iff.mp h
  obtain ⟨tokens, hscan, htree⟩ := exists_tokens_of_parse hparse
  have hphrase := Expr.phrase_of_ofTokens htree
  exact (Token.spelt_of_scanFrom hscan).isFinite (hphrase.mem_of_mem_numbers hx)

/-- The result of an operator is finite. -/
theorem isFinite_of_finite {result : Option Float} (h : finite result = .number x) :
    x.isFinite = true := by
  unfold finite at h
  split at h
  · split at h
    · cases h
      assumption
    · cases h
  · cases h

/-- A number that an operator gives is finite. -/
theorem Operator.isFinite_of_apply {op : Operator} {a b : Value} (h : op.apply a b = .number x) :
    x.isFinite = true := by
  unfold Operator.apply at h
  split at h
  · cases h
  · cases h
  · exact isFinite_of_finite h
  · exact isFinite_of_finite h
  · cases h

end Formula

namespace Sheet

variable {s : Sheet} {a : Address} {x : Float} {v : Value} {subject : Subject}

/-- The numbers that are written in a tree are finite. -/
def Finite : Subject → Prop
  | .tree e => ∀ x ∈ e.numbers, x.isFinite = true
  | _ => True

/-- A number that is derived for a cell, a formula, or a tree with finite numbers is finite. -/
theorem Derives.isFinite (h : s.Derives subject v) (hsubject : Finite subject)
    (hv : v = .number x) : x.isFinite = true := by
  induction h generalizing x with
  | content ht hx =>
    cases hv
    exact Content.isFinite_of_number? hx
  | cell ht hw ih => exact ih trivial hv
  | formula he hw ih => exact ih (fun _ => Formula.isFinite_of_tree? he) hv
  | number y =>
    cases hv
    exact hsubject _ (List.mem_singleton_self _)
  | name hp hw ih => exact ih trivial hv
  | call f hx ih =>
    have hargument := ih hsubject rfl
    cases f with
    | increment =>
      cases hv
      exact Binary64.isFinite_add_one hargument
    | decrement =>
      cases hv
      exact Binary64.isFinite_sub_one hargument
  | binary op hl hr hok ihl ihr => exact Formula.Operator.isFinite_of_apply hv

end Sheet

end Spreadsheet
