import Mathlib.Data.List.TakeWhile
import Spreadsheet.Sheet.Reference

/-!
# Searching a text for names

References are found in the raw text by a search for capital letters with digits after them. What
is found at the head of a text and what is found in the rest make up what is found in all of it,
if the text is cut where a token ends. The search takes no notice of numbers, so the exponent of
a number may be found as a name.
-/

namespace Spreadsheet

/-- Capital letters by their numbers. -/
theorem isUpper_iff {c : Char} : c.isUpper = true ↔ 65 ≤ c.toNat ∧ c.toNat ≤ 90 :=
  decide_eq_true_iff

theorem isLower_iff {c : Char} : c.isLower = true ↔ 97 ≤ c.toNat ∧ c.toNat ≤ 122 :=
  Bool.and_eq_true_iff.trans (and_congr decide_eq_true_iff decide_eq_true_iff)

theorem isAlpha_iff {c : Char} : c.isAlpha = true ↔ c.isUpper = true ∨ c.isLower = true :=
  Bool.or_eq_true_iff

/-- Digits by their numbers. -/
theorem isDigit_iff {c : Char} : c.isDigit = true ↔ 48 ≤ c.toNat ∧ c.toNat ≤ 57 :=
  Char.isDigit_iff_toNat

/-- No digit is a capital letter. -/
theorem not_isUpper_of_isDigit {c : Char} (h : c.isDigit = true) : c.isUpper = false := by
  have hdigit := isDigit_iff.mp h
  refine Bool.eq_false_iff.mpr fun hup => ?_
  have hletter := isUpper_iff.mp hup
  omega

namespace Formula

variable {c : Char} {text u left letters digits : List Char} {name : String}

/-- A search passes over a character that is no capital letter. -/
theorem cellNames_cons (h : c.isUpper = false) : cellNames (c :: text) = cellNames text := by
  rw [cellNames, if_neg (by simp [h])]

/-- Text without capital letters adds no names in front of another. -/
theorem cellNames_append_of_not_isUpper (h : ∀ c ∈ u, c.isUpper = false) :
    cellNames (u ++ text) = cellNames text := by
  induction u with
  | nil => rfl
  | cons c u ih =>
    rw [List.cons_append, cellNames_cons (h c List.mem_cons_self),
      ih fun d hd => h d (List.mem_cons_of_mem c hd)]

/-- Digits in front of a text make no name. -/
theorem cellNames_dropWhile_isDigit (text : List Char) :
    cellNames (text.dropWhile Char.isDigit) = cellNames text := by
  have hdigits : ∀ c ∈ text.takeWhile Char.isDigit, c.isUpper = false := fun c hc =>
    not_isUpper_of_isDigit (List.mem_takeWhile_imp hc)
  have htext : cellNames (text.takeWhile Char.isDigit ++ text.dropWhile Char.isDigit) =
      cellNames (text.dropWhile Char.isDigit) := cellNames_append_of_not_isUpper hdigits
  rw [List.takeWhile_append_dropWhile] at htext
  exact htext.symm

/-- At a capital letter the search takes the run of letters and the digits behind it, and goes on
behind the letters. -/
theorem cellNames_letter_cons (hc : c.isUpper = true) (text : List Char) :
    cellNames (c :: text) =
      (if (text.dropWhile Char.isUpper).takeWhile Char.isDigit = [] then []
        else [String.ofList (c :: text.takeWhile Char.isUpper ++
          (text.dropWhile Char.isUpper).takeWhile Char.isDigit)]) ++
        cellNames (text.dropWhile Char.isUpper) := by
  rw [cellNames, if_pos hc]
  simp only [cellNames_dropWhile_isDigit]
  split
  · rfl
  · rfl

/-- A single capital letter without a digit behind it is no name. -/
theorem cellNames_letter_append {d : Char} (hc : c.isUpper = true) (hd : d.isUpper = false)
    (hdigit : d.isDigit = false) : cellNames (c :: d :: text) = cellNames text := by
  rw [cellNames_letter_cons hc, List.dropWhile_cons_of_neg (by simp [hd]),
    List.takeWhile_cons_of_neg (by simp [hdigit]), if_pos rfl, List.nil_append, cellNames_cons hd]

/-- Capital letters with digits after them are a name if no further digit follows. -/
theorem cellNames_append_name (hletters : letters ≠ []) (hupper : letters.all Char.isUpper = true)
    (hdigits : digits ≠ []) (hall : digits.all Char.isDigit = true)
    (hleft : left.takeWhile Char.isDigit = []) :
    cellNames (letters ++ (digits ++ left)) =
      String.ofList (letters ++ digits) :: cellNames left := by
  obtain ⟨c, letters, rfl⟩ := List.exists_cons_of_ne_nil hletters
  obtain ⟨hc, hrest⟩ := List.forall_mem_cons.mp (List.all_eq_true.mp hupper)
  have hall := List.all_eq_true.mp hall
  -- The letters end at the first digit.
  obtain ⟨htake, hdrop⟩ : (digits ++ left).takeWhile Char.isUpper = [] ∧
      (digits ++ left).dropWhile Char.isUpper = digits ++ left := by
    obtain ⟨d, digits, rfl⟩ := List.exists_cons_of_ne_nil hdigits
    have hd := not_isUpper_of_isDigit (hall d List.mem_cons_self)
    exact ⟨List.takeWhile_cons_of_neg (by simp [hd]), List.dropWhile_cons_of_neg (by simp [hd])⟩
  have hdigitsLeft : (digits ++ left).takeWhile Char.isDigit = digits := by
    rw [List.takeWhile_append_of_pos hall, hleft, List.append_nil]
  have hrestLeft : cellNames (digits ++ left) = cellNames left :=
    cellNames_append_of_not_isUpper fun d hd => not_isUpper_of_isDigit (hall d hd)
  rw [List.cons_append, cellNames_letter_cons hc, List.takeWhile_append_of_pos hrest, htake,
    List.dropWhile_append_of_pos hrest, hdrop, hdigitsLeft, if_neg hdigits, hrestLeft,
    List.append_nil, List.singleton_append]

/-- Text in front of a text hides none of its names unless it ends in a capital letter. -/
theorem cellNames_subset_append (hc : c.isUpper = false) (u text : List Char) :
    cellNames text ⊆ cellNames (u ++ c :: text) := by
  induction hn : u.length using Nat.strongRecOn generalizing u with
  | _ n ih =>
    cases u with
    | nil =>
      rw [List.nil_append, cellNames_cons hc]
      exact List.Subset.refl _
    | cons d u =>
      have hshorter : ∀ v : List Char, v.length ≤ u.length →
          cellNames text ⊆ cellNames (v ++ c :: text) := fun v hv =>
        ih v.length (by simp only [List.length_cons] at hn; omega) v rfl
      by_cases hd : d.isUpper = true
      · -- The run of capital letters ends before the prefix does.
        obtain ⟨v, hv, hafter⟩ : ∃ v : List Char, v.length ≤ u.length ∧
            (u ++ c :: text).dropWhile Char.isUpper = v ++ c :: text := by
          rw [List.dropWhile_append]
          split
          · exact ⟨[], Nat.zero_le _, List.dropWhile_cons_of_neg (by simp [hc])⟩
          · exact ⟨_, List.length_dropWhile_le _ _, rfl⟩
        rw [List.cons_append, cellNames_letter_cons hd, hafter]
        exact List.subset_append_of_subset_right _ (hshorter v hv)
      · rw [List.cons_append, cellNames_cons (by simpa using hd)]
        exact hshorter u (Nat.le_refl _)

/-- A text has the mark `E` between a digit or a point and digits that no further digit follows.
In a formula that can be read these are the mark and the digits of an exponent; they are written
like the name of a cell. -/
def HasExponent (text : List Char) (name : String) : Prop :=
  ∃ before point digits after, text = before ++ point :: 'E' :: (digits ++ after) ∧
    (point.isDigit = true ∨ point = '.') ∧ digits ≠ [] ∧ digits.all Char.isDigit = true ∧
    after.takeWhile Char.isDigit = [] ∧ name = String.ofList ('E' :: digits)

/-- The mark and the digits are found as a name. -/
theorem cellNames_exponent (hdigits : digits ≠ []) (hall : digits.all Char.isDigit = true)
    (hleft : left.takeWhile Char.isDigit = []) :
    cellNames ('E' :: (digits ++ left)) = String.ofList ('E' :: digits) :: cellNames left := by
  have hmark : ['E'] ≠ [] := List.cons_ne_nil _ _
  exact cellNames_append_name hmark rfl hdigits hall hleft

theorem HasExponent.append (h : HasExponent text name) (u : List Char) :
    HasExponent (u ++ text) name := by
  obtain ⟨before, point, digits, after, rfl, h⟩ := h
  exact ⟨u ++ before, point, digits, after, (List.append_assoc ..).symm, h⟩

/-- The search takes an exponent for a name. -/
theorem HasExponent.mem_cellNames (h : HasExponent text name) : name ∈ cellNames text := by
  obtain ⟨before, point, digits, after, rfl, hpoint, hdigits, hall, hafter, rfl⟩ := h
  have hupper : point.isUpper = false := by
    rcases hpoint with hdigit | rfl
    · exact not_isUpper_of_isDigit hdigit
    · rfl
  refine cellNames_subset_append hupper before _ ?_
  rw [cellNames_exponent hdigits hall hafter]
  exact List.mem_cons_self

end Formula

end Spreadsheet
