import Spreadsheet.Proofs.Formula.Printing
import Spreadsheet.Proofs.Number.Longest

/-!
# Where scanning stops

To read a token the scanner looks beyond it, but what it finds there never matters unless it goes
on with the token: a text that ends earlier, behind the token, begins with the same token. So if
the scanner comes to a character that begins no token, it can read the text in front of that
character on its own.
-/

namespace Spreadsheet.Formula.Token

variable {size size' : Nat} {operand spaced negative : Bool} {c found : Char} {t : Token}
  {text rest left after : List Char} {pos : Nat}

/-- The characters that operators and parentheses begin with. -/
def marks : List Char := ['+', '*', '/', '(', ')', '=', '<', '>', '-']

theorem sign?_eq_none (hc : c ∉ marks) : sign? c rest = none := by
  unfold sign?
  split <;> first | rfl | exact absurd (by decide) hc

/-- The only mark that is no sign is the minus. -/
theorem eq_minus_of_sign? (hc : c ∈ marks) (h : sign? c rest = none) : c = '-' := by
  unfold sign? at h
  split at h <;> simp_all [marks]

/-- A sign is found by its first character. -/
theorem sign?_eq_none_of (h : sign? c text = none) (rest : List Char) : sign? c rest = none := by
  by_cases hc : c ∈ marks
  · rw [eq_minus_of_sign? hc h]
    rfl
  · exact sign?_eq_none hc

/-- A sign is the same without what follows. -/
theorem sign?_of_append (h : sign? c (rest ++ after) = some (t, left ++ after)) :
    sign? c rest = some (t, left) := by
  -- A sign of two characters does not end in what follows the shorter text.
  have htwo : ∀ d behind, rest ++ after = d :: behind → behind = left ++ after →
      rest = d :: left := by
    rintro d behind hrest rfl
    exact List.append_cancel_right (hrest.trans (List.cons_append ..).symm)
  unfold sign? at h
  split at h <;> simp only [Option.some.injEq, Prod.mk.injEq, reduceCtorEq] at h <;>
    obtain ⟨rfl, hleft⟩ := h
  case h_7 behind hrest =>
    rw [htwo _ _ hrest hleft]
    rfl
  case h_8 behind hrest =>
    rw [htwo _ _ hrest hleft]
    rfl
  case h_10 behind hrest =>
    rw [htwo _ _ hrest hleft]
    rfl
  case h_9 hequal hmore =>
    obtain rfl := List.append_cancel_right hleft
    cases rest with
    | nil => rfl
    | cons d rest =>
      have hd : d ≠ '=' := fun hd => hequal (rest ++ after) (by rw [hd]; rfl)
      have hd' : d ≠ '>' := fun hd => hmore (rest ++ after) (by rw [hd]; rfl)
      simp [sign?, hd, hd']
  case h_11 hequal =>
    obtain rfl := List.append_cancel_right hleft
    cases rest with
    | nil => rfl
    | cons d rest =>
      have hd : d ≠ '=' := fun hd => hequal (rest ++ after) (by rw [hd]; rfl)
      simp [sign?, hd]
  all_goals
    rw [List.append_cancel_right hleft]
    rfl

theorem number?_of_append (h : number? negative (rest ++ after) = some (.ok (t, left ++ after))) :
    number? negative rest = some (.ok (t, left)) := by
  obtain ⟨⟨n, behind⟩, hscan, hvalue⟩ := Option.map_eq_some_iff.mp h
  simp only at hvalue
  split at hvalue
  · rename_i x hx
    obtain ⟨rfl, rfl⟩ := Prod.mk.inj (Except.ok.inj hvalue)
    rw [number?, Numeral.scan_append_of_scan hscan, Option.map_some]
    simp only [hx]
  · cases hvalue

theorem number?_eq_none_of_append (h : number? negative (rest ++ after) = none) :
    number? negative rest = none := by
  rw [number?, Option.map_eq_none_iff] at h ⊢
  exact Numeral.scan_eq_none_of_append h

theorem head?_of_append {P : Char → Prop} (h : ∀ c ∈ (left ++ after).head?, P c) :
    ∀ c ∈ left.head?, P c := by
  cases left with
  | nil => simp
  | cons c left => exact h

theorem wordOperator_of_append {op : ProductOp} {behind : List Char}
    (h : wordOperator spaced op behind = .ok (t, left ++ after)) :
    behind = left ++ after ∧ wordOperator spaced op left = .ok (t, left) := by
  unfold wordOperator at h ⊢
  split at h
  · rename_i hspaced
    obtain ⟨rfl, rfl⟩ := Prod.mk.inj (Except.ok.inj h)
    exact ⟨rfl, if_pos hspaced⟩
  · cases h

/-- A function name needs the parenthesis after it, which the shorter text must not lose. -/
theorem functionName_of_append {f : Unary} {behind : List Char}
    (h : functionName f behind = .ok (t, left ++ after))
    (hcall : left = [] → after.head? ≠ some '(') :
    behind = left ++ after ∧ functionName f left = .ok (t, left) := by
  unfold functionName at h ⊢
  split at h
  · rename_i hhead
    obtain ⟨rfl, rfl⟩ := Prod.mk.inj (Except.ok.inj h)
    refine ⟨rfl, if_pos ?_⟩
    cases left with
    | nil => exact absurd hhead (hcall rfl)
    | cons c left => exact hhead
  · cases h

/-- A word is the same without what follows, unless this is the parenthesis of a call. -/
theorem word_of_append (h : word spaced (text ++ after) = .ok (t, left ++ after))
    (hcall : left = [] → after.head? ≠ some '(') : word spaced text = .ok (t, left) := by
  have hsplit : (text ++ after).takeWhile Char.isAlpha ++ (text ++ after).dropWhile Char.isAlpha =
      text ++ after := List.takeWhile_append_dropWhile
  have hletters : ((text ++ after).takeWhile Char.isAlpha).all Char.isAlpha = true :=
    List.all_takeWhile
  have hbehind : ∀ c ∈ ((text ++ after).dropWhile Char.isAlpha).head?, c.isAlpha = false :=
    fun _ => of_mem_head?_dropWhile
  simp only [word] at h
  generalize (text ++ after).takeWhile Char.isAlpha = letters at h hsplit hletters
  generalize (text ++ after).dropWhile Char.isAlpha = behind at h hsplit hbehind
  by_cases hname : letters.all Char.isUpper = true ∧ behind.takeWhile Char.isDigit ≠ []
  · rw [if_pos hname] at h
    obtain ⟨rfl, hleft⟩ := Prod.mk.inj (Except.ok.inj h)
    have hdigits : behind.takeWhile Char.isDigit ++ (left ++ after) = behind := by
      rw [← hleft, List.takeWhile_append_dropWhile]
    have hstop : ∀ c ∈ (left ++ after).head?, c.isDigit = false :=
      fun _ hc => of_mem_head?_dropWhile (hleft ▸ hc)
    have hdigit : (behind.takeWhile Char.isDigit).all Char.isDigit = true := List.all_takeWhile
    obtain ⟨hupper, hne⟩ := hname
    generalize behind.takeWhile Char.isDigit = digits at hdigits hdigit hne
    subst hdigits
    rw [← List.append_assoc, ← List.append_assoc, List.append_assoc letters] at hsplit
    obtain rfl := List.append_cancel_right hsplit
    rw [← List.append_assoc] at hbehind
    obtain ⟨htake, hdrop⟩ := takeWhile_dropWhile_append hletters (head?_of_append hbehind)
    obtain ⟨htake', hdrop'⟩ := takeWhile_dropWhile_append hdigit (head?_of_append hstop)
    simp only [word, htake, hdrop, htake', hdrop']
    exact if_pos ⟨hupper, hne⟩
  · rw [if_neg hname] at h
    -- What stands behind an operator or a function name is what is left.
    obtain ⟨rfl, hword⟩ : behind = left ++ after ∧
        (if letters = ['m', 'o', 'd'] then wordOperator spaced .remainder left
        else if letters = ['d', 'i', 'v'] then wordOperator spaced .quotient left
        else if letters = ['i', 'n', 'c'] then functionName .increment left
        else if letters = ['d', 'e', 'c'] then functionName .decrement left
        else .error (.unknownWord (String.ofList letters))) = .ok (t, left) := by
      split_ifs at h ⊢
      · exact wordOperator_of_append h
      · exact wordOperator_of_append h
      · exact functionName_of_append h hcall
      · exact functionName_of_append h hcall
    rw [← List.append_assoc] at hsplit
    obtain rfl := List.append_cancel_right hsplit
    obtain ⟨htake, hdrop⟩ := takeWhile_dropWhile_append hletters (head?_of_append hbehind)
    simp only [word, htake, hdrop]
    rw [if_neg, hword]
    rintro ⟨hupper, hdigits⟩
    refine hname ⟨hupper, ?_⟩
    cases left with
    | nil => exact absurd rfl hdigits
    | cons c left => cases hc : c.isDigit <;> simp_all

/-- A minus is the same without what follows. -/
theorem minus_of_append
    (h : lexeme size operand spaced '-' (rest ++ after) = .ok (t, left ++ after)) (size' : Nat) :
    lexeme size' operand spaced '-' rest = .ok (t, left) := by
  rw [lexeme_minus] at h ⊢
  cases hnumber : if operand then number? true (rest ++ after) else none with
  | none =>
    have hnone : (if operand then number? true rest else none) = none := by
      cases operand with
      | false => rfl
      | true => exact number?_eq_none_of_append hnumber
    rw [hnumber] at h
    obtain ⟨rfl, hleft⟩ := Prod.mk.inj (Except.ok.inj h)
    rw [hnone, List.append_cancel_right hleft]
  | some result =>
    rw [hnumber] at h
    simp only at h
    subst h
    cases operand with
    | false => cases hnumber
    | true => rw [if_pos rfl, number?_of_append hnumber]

/-- A token is read in front of a shorter text as it is in front of a longer one. -/
theorem lexeme_of_append (h : lexeme size operand spaced c (rest ++ after) = .ok (t, left ++ after))
    (hcall : left = [] → after.head? ≠ some '(') (size' : Nat) :
    lexeme size' operand spaced c rest = .ok (t, left) := by
  by_cases hminus : c = '-'
  · subst hminus
    exact minus_of_append h size'
  · rw [lexeme, if_neg hminus] at h ⊢
    cases hsign : sign? c (rest ++ after) with
    | some found =>
      rw [hsign] at h
      obtain rfl := Except.ok.inj h
      rw [sign?_of_append hsign]
    | none =>
      rw [hsign] at h
      rw [sign?_eq_none_of hsign]
      simp only at h ⊢
      rw [← List.cons_append] at h
      cases hnumber : number? false (c :: rest ++ after) with
      | none =>
        rw [hnumber] at h
        rw [number?_eq_none_of_append hnumber]
        simp only at h ⊢
        split at h
        · rename_i halpha
          rw [if_pos halpha]
          exact word_of_append h hcall
        · cases h
      | some result =>
        rw [hnumber] at h
        simp only at h
        subst h
        rw [number?_of_append hnumber]

/-- A token is what is in front of the text behind it. -/
theorem exists_append_of_lexeme (h : lexeme size operand spaced c rest = .ok (t, left)) :
    ∃ u, rest = u ++ left ∧ t.Written (c :: u) := by
  obtain ⟨u, htext, hw, -⟩ := exists_written_of_lexeme h
  cases u with
  | nil =>
    have hshort := length_of_lexeme h
    rw [List.nil_append] at htext
    rw [← htext, List.length_cons] at hshort
    omega
  | cons d u =>
    obtain ⟨rfl, hrest⟩ := List.cons.inj htext
    exact ⟨u, hrest, hw⟩

/-- A character is unexpected where it stands. -/
theorem unexpectedChar_of_lexeme
    (h : lexeme size operand spaced c rest = .error (.unexpectedChar pos found)) :
    found = c ∧ pos = size - byteSize (c :: rest) ∧ c ≠ '(' := by
  have hnumber : ∀ {negative text}, number? negative text ≠
      some (.error (.unexpectedChar pos found)) := by
    intro negative text hnumber
    obtain ⟨⟨n, behind⟩, -, hvalue⟩ := Option.map_eq_some_iff.mp hnumber
    simp only at hvalue
    split at hvalue <;> cases hvalue
  have hword : word spaced (c :: rest) ≠ .error (.unexpectedChar pos found) := by
    simp only [word, wordOperator, functionName]
    split_ifs <;> simp
  unfold lexeme at h
  split at h
  · cases h
  · rename_i hsign
    split at h
    · split at h
      · rename_i result hresult
        subst h
        split at hresult
        · exact absurd hresult hnumber
        · cases hresult
      · cases h
    · split at h
      · rename_i result hresult
        subst h
        exact absurd hresult hnumber
      · split at h
        · exact absurd h hword
        · obtain ⟨rfl, rfl⟩ := Fault.unexpectedChar.inj (Except.error.inj h)
          refine ⟨rfl, rfl, ?_⟩
          rintro rfl
          cases hsign

/-- A fault at the head of a text is the fault of the scan. -/
theorem scanFrom_error {size : Nat} {operand before : Bool} {fault : Fault}
    (hc : isSpace c = false) (h : lexeme size operand before c rest = .error fault) :
    Token.scanFrom size operand before (c :: rest) = .error fault := by
  rw [Token.scanFrom, hc, if_neg Bool.false_ne_true]
  split
  · rename_i fault' hfault
    rw [h] at hfault
    cases hfault
    rfl
  · rename_i hok
    rw [h] at hok
    cases hok

/-- The text in front of a character that begins no token is read on its own. -/
theorem exists_before_unexpectedChar
    (h : scanFrom size operand spaced text = .error (.unexpectedChar pos found)) :
    ∃ before after, text = before ++ found :: after ∧ pos = size - byteSize (found :: after) ∧
      found ≠ '(' ∧ ∀ size', ∃ tokens, scanFrom size' operand spaced before = .ok tokens := by
  induction hlength : text.length using Nat.strongRecOn generalizing text operand spaced with
  | _ n ih =>
    subst hlength
    cases text with
    | nil =>
      rw [scanFrom] at h
      cases h
    | cons c rest =>
      cases hc : isSpace c with
      | true =>
        rw [scanFrom, hc, if_pos rfl] at h
        obtain ⟨before, after, rfl, hpos, hfound, hscan⟩ := ih _ (by simp) h rfl
        refine ⟨c :: before, after, rfl, hpos, hfound, fun size' => ?_⟩
        obtain ⟨tokens, htokens⟩ := hscan size'
        exact ⟨tokens, by rw [scanFrom, hc, if_pos rfl, htokens]⟩
      | false =>
        cases hlexeme : lexeme size operand spaced c rest with
        | error fault =>
          rw [scanFrom_error hc hlexeme] at h
          obtain rfl := Except.error.inj h
          obtain ⟨rfl, hpos, hparen⟩ := unexpectedChar_of_lexeme hlexeme
          refine ⟨[], rest, rfl, hpos, hparen, fun size' => ⟨[], by rw [scanFrom]⟩⟩
        | ok found' =>
          obtain ⟨t, left⟩ := found'
          have hshort := length_of_lexeme hlexeme
          rw [scanFrom_cons hc hlexeme] at h
          cases hleft : scanFrom size t.opensOperand false left with
          | ok tokens =>
            rw [hleft] at h
            cases h
          | error fault =>
            rw [hleft] at h
            obtain rfl := Except.error.inj h
            obtain ⟨before, after, rfl, hpos, hparen, hscan⟩ := ih _ (by simp; omega) hleft rfl
            obtain ⟨u, rfl, -⟩ := exists_append_of_lexeme hlexeme
            rw [← List.append_assoc] at hlexeme ⊢
            refine ⟨c :: (u ++ before), after, rfl, hpos, hparen, fun size' => ?_⟩
            obtain ⟨tokens, htokens⟩ := hscan size'
            have hshorter := lexeme_of_append hlexeme (fun _ => by simpa using hparen) size'
            exact ⟨t :: tokens, by rw [scanFrom_cons hc hshorter, htokens]; rfl⟩

end Spreadsheet.Formula.Token
