import Spreadsheet.Proofs.Formula.Lexeme

/-!
# The references of a formula cover its tree

The search for references goes through the raw text from left to right: where no name begins it
moves on by a character, and where names begin it takes the longest and goes on behind it. In a
formula that can be read it comes upon every cell that the tree names. Each cell is listed once,
however many names are found for it.
-/

namespace Spreadsheet

/-- A list is left without repetitions. -/
theorem nodup_eraseDups {α : Type} [BEq α] [LawfulBEq α] (l : List α) : l.eraseDups.Nodup := by
  induction hn : l.length using Nat.strongRecOn generalizing l with
  | _ n ih =>
    cases l with
    | nil => simp
    | cons a l =>
      rw [List.eraseDups_cons, List.nodup_cons]
      refine ⟨by simp [List.mem_eraseDups], ih _ ?_ _ rfl⟩
      rw [← hn, List.length_cons]
      exact Nat.lt_succ_of_le (List.length_filter_le _ _)

namespace Formula

/-- What a search for names finds in a text, from left to right. -/
inductive Finds : List Char → List String → Prop where
  /-- There is nothing to search. -/
  | nil : Finds [] []
  /-- Where no name begins, the search moves on by a character. -/
  | skip {c : Char} {text : List Char} {names : List String}
    (hnone : ∀ u, u <+: c :: text → ¬ IsName (String.ofList u)) (hrest : Finds text names) :
    Finds (c :: text) names
  /-- Where names begin, the search takes the longest and goes on behind it. -/
  | take {u left : List Char} {names : List String} (hname : IsName (String.ofList u))
    (hlongest : ∀ v, v <+: u ++ left → IsName (String.ofList v) → v.length ≤ u.length)
    (hrest : Finds left names) : Finds (u ++ left) (String.ofList u :: names)

variable {c : Char} {text u left : List Char} {names : List String}

/-- The capital letters at the head of a text. -/
def headLetters (text : List Char) : List Char := text.takeWhile Char.isUpper

/-- The digits behind the capital letters at the head of a text. -/
def headDigits (text : List Char) : List Char :=
  (text.dropWhile Char.isUpper).takeWhile Char.isDigit

/-- A name at the head of a text consists of all capital letters there, and of digits behind
them. -/
theorem IsName.prefix_head (hname : IsName (String.ofList u)) (hu : u <+: text) :
    headLetters text ≠ [] ∧ headDigits text ≠ [] ∧ u <+: headLetters text ++ headDigits text := by
  obtain ⟨letters, digits, hsplit, hletters, hupper, hdigits, hdigit⟩ := hname
  rw [String.toList_ofList] at hsplit
  obtain ⟨left, rfl⟩ := hu
  obtain ⟨d, ds, rfl⟩ := List.exists_cons_of_ne_nil hdigits
  have hhead : ∀ c ∈ (d :: ds ++ left).head?, c.isUpper = false := fun c hc => by
    obtain rfl : d = c := Option.some.inj hc
    exact not_isUpper_of_isDigit (List.all_eq_true.mp hdigit d List.mem_cons_self)
  obtain ⟨htake, hdrop⟩ := takeWhile_dropWhile_append hupper hhead
  have htaken : headLetters (u ++ left) = letters := by
    rw [headLetters, hsplit, List.append_assoc, htake]
  have hrest : headDigits (u ++ left) = d :: ds ++ left.takeWhile Char.isDigit := by
    rw [headDigits, hsplit, List.append_assoc, hdrop,
      List.takeWhile_append_of_pos (List.all_eq_true.mp hdigit)]
  rw [htaken, hrest]
  refine ⟨hletters, List.cons_ne_nil _ _, ?_⟩
  rw [hsplit, ← List.append_assoc]
  exact List.prefix_append _ _

/-- Letters and digits at the head of a text make a name. -/
theorem isName_head (hletters : headLetters text ≠ []) (hdigits : headDigits text ≠ []) :
    IsName (String.ofList (headLetters text ++ headDigits text)) :=
  isName_ofList hletters List.all_takeWhile hdigits List.all_takeWhile

theorem head_isPrefix (text : List Char) : headLetters text ++ headDigits text <+: text := by
  have hsplit : headLetters text ++ text.dropWhile Char.isUpper = text :=
    List.takeWhile_append_dropWhile
  have hprefix : headLetters text ++ headDigits text <+:
      headLetters text ++ text.dropWhile Char.isUpper :=
    (List.prefix_append_right_inj _).mpr (List.takeWhile_prefix _)
  rwa [hsplit] at hprefix

/-- Without digits behind them, the capital letters at the head of a text can be dropped. -/
theorem cellNames_dropWhile_isUpper (h : headDigits text = []) :
    cellNames (text.dropWhile Char.isUpper) = cellNames text := by
  cases text with
  | nil => rfl
  | cons c text =>
    by_cases hc : c.isUpper = true
    · rw [headDigits, List.dropWhile_cons_of_pos hc] at h
      rw [List.dropWhile_cons_of_pos hc, cellNames_letter_cons hc, if_pos h, List.nil_append]
    · rw [List.dropWhile_cons_of_neg hc]

/-- Where no name begins, the first character can be dropped. -/
theorem cellNames_cons_of_not_isName (h : ∀ u, u <+: c :: text → ¬ IsName (String.ofList u)) :
    cellNames (c :: text) = cellNames text := by
  by_cases hc : c.isUpper = true
  · have hdigits : headDigits (c :: text) = [] := by
      by_contra hdigits
      refine h _ (head_isPrefix _) (isName_head ?_ hdigits)
      rw [headLetters, List.takeWhile_cons_of_pos hc]
      exact List.cons_ne_nil _ _
    rw [← cellNames_dropWhile_isUpper hdigits]
    rw [headDigits, List.dropWhile_cons_of_pos hc] at hdigits
    rw [List.dropWhile_cons_of_pos hc, cellNames_dropWhile_isUpper hdigits]
  · exact cellNames_cons (by simpa using hc)

/-- The longest name at the head of a text is followed by no digit. -/
theorem takeWhile_isDigit_of_longest (hname : IsName (String.ofList u))
    (hlongest : ∀ v, v <+: u ++ left → IsName (String.ofList v) → v.length ≤ u.length) :
    left.takeWhile Char.isDigit = [] := by
  cases left with
  | nil => rfl
  | cons d left =>
    refine List.takeWhile_cons_of_neg fun hd => ?_
    obtain ⟨letters, digits, hsplit, hletters, hupper, _, hdigit⟩ := hname
    rw [String.toList_ofList] at hsplit
    have hlonger : IsName (String.ofList (u ++ [d])) := by
      rw [hsplit, List.append_assoc]
      exact isName_ofList hletters hupper (by simp) (by simp [hdigit, hd])
    have hle := hlongest (u ++ [d]) ⟨left, by simp⟩ hlonger
    simp only [List.length_append, List.length_singleton] at hle
    omega

/-- What the matches find is what the search finds. -/
theorem Finds.eq_cellNames (h : Finds text names) : names = cellNames text := by
  induction h with
  | nil => rw [cellNames]
  | skip hnone _ ih => rw [cellNames_cons_of_not_isName hnone, ih]
  | @take u left names hname hlongest _ ih =>
    have hleft := takeWhile_isDigit_of_longest hname hlongest
    obtain ⟨letters, digits, hsplit, hletters, hupper, hdigits, hdigit⟩ := hname
    rw [String.toList_ofList] at hsplit
    rw [hsplit, List.append_assoc, cellNames_append_name hletters hupper hdigits hdigit hleft, ih]

/-- The search takes the longest names from left to right. -/
theorem finds_iff : Finds text names ↔ names = cellNames text := by
  refine ⟨Finds.eq_cellNames, ?_⟩
  rintro rfl
  induction hn : text.length using Nat.strongRecOn generalizing text with
  | _ n ih =>
    by_cases h : ∃ u, u <+: text ∧ IsName (String.ofList u)
    · obtain ⟨u, hu, hname⟩ := h
      obtain ⟨hletters, hdigits, _⟩ := hname.prefix_head hu
      have hlongest : ∀ v, v <+: text → IsName (String.ofList v) →
          v.length ≤ (headLetters text ++ headDigits text).length := fun v hv hvname =>
        (hvname.prefix_head hv).2.2.length_le
      obtain ⟨left, hleft⟩ := head_isPrefix text
      have hshorter : left.length < n := by
        have hpos := List.length_pos_iff.mpr hletters
        rw [← hn, ← hleft]
        simp only [List.length_append]
        omega
      have hfinds : Finds (headLetters text ++ headDigits text ++ left)
          (String.ofList (headLetters text ++ headDigits text) :: cellNames left) :=
        .take (isName_head hletters hdigits) (by rwa [hleft]) (ih _ hshorter rfl)
      rw [hleft] at hfinds
      rwa [← hfinds.eq_cellNames]
    · cases text with
      | nil =>
        rw [cellNames]
        exact .nil
      | cons c text =>
        have hnone : ∀ u, u <+: c :: text → ¬ IsName (String.ofList u) := fun u hu hname =>
          h ⟨u, hu, hname⟩
        rw [cellNames_cons_of_not_isName hnone]
        exact .skip hnone (ih _ (by rw [← hn, List.length_cons]; exact Nat.lt_succ_self _) rfl)

/-- A body that can be read mentions, behind its equals sign, every cell that its tree names. The
cells that it mentions are those whose names are found in the text, each listed once, where it is
found first. -/
theorem references_cover_names {body : List Char} {e : Expr} (h : parse body = .ok e) :
    (∀ name ∈ e.names, ∀ a, Address.parse? name = some a →
      a ∈ references (String.ofList ('=' :: body))) ∧
    (references (String.ofList ('=' :: body))).Nodup ∧
    ∃ found, Finds ('=' :: body) found ∧
      references (String.ofList ('=' :: body)) = (found.filterMap Address.parse?).eraseDups := by
  have hformula : (Content.ofText (String.ofList ('=' :: body))).isFormula = true := by
    rw [Content.isFormula_ofText, String.toList_ofList]
    rfl
  have hreferences : references (String.ofList ('=' :: body)) =
      ((cellNames ('=' :: body)).filterMap Address.parse?).eraseDups := by
    rw [references, if_pos hformula, String.toList_ofList]
  refine ⟨fun name hname a ha => ?_, ?_, _, finds_iff.mpr rfl, hreferences⟩
  · refine (mem_references hformula).mpr ⟨name, ?_, ha⟩
    rw [String.toList_ofList, cellNames_cons (by decide)]
    exact (mem_cellNames_iff_of_parse h).mpr (.inl hname)
  · rw [hreferences]
    exact nodup_eraseDups _

/-- One cell by two names, and a number between them. -/
theorem references_cover_names_twice :
    ∃ e, parse "A1*2E3+A01".toList = .ok e ∧ e.names = ["A1", "A01"] ∧
      ⟨0, 0⟩ ∈ references "=A1*2E3+A01" ∧ (references "=A1*2E3+A01").Nodup := by
  obtain ⟨e, h, hnames⟩ : ∃ e, parse "A1*2E3+A01".toList = .ok e ∧ e.names = ["A1", "A01"] :=
    ⟨.binary (.sum .add) (.binary (.product .multiply) (.cell "A1") (.number 2000)) (.cell "A01"),
      by decide +kernel, rfl⟩
  obtain ⟨hcover, hnodup, _⟩ := references_cover_names h
  exact ⟨e, h, hnames, hcover "A01" (by simp [hnames]) _ (by decide), hnodup⟩

end Formula

end Spreadsheet
