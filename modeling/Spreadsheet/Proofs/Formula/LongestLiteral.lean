import Spreadsheet.Proofs.Formula.Bytewise
import Spreadsheet.Proofs.Number.Form
import Spreadsheet.Proofs.Number.Overflow

/-!
# Where numbers are scanned

A scanner sets out to scan a number at a digit, at a point with a digit after it, and, where an
operand is due, at a minus sign with either of them after it. The text that it slices there is the
longest literal, which is in the form that a reader of numbers accepts; the reader refuses it only
if its value is rounded to infinity. Numbers are found or refused at no other place.
-/

namespace Spreadsheet

namespace Numeral.WellFormed

variable {n : Numeral} {c : Char}

theorem exists_isDigit (h : n.WellFormed) : ∃ c ∈ n.text, c.isDigit = true := by
  rcases h.digit with hne | hne
  · obtain ⟨c, hc⟩ := List.exists_mem_of_ne_nil _ hne
    exact ⟨c, by simp [text, hc], List.all_eq_true.mp h.whole c hc⟩
  · obtain ⟨c, hc⟩ := List.exists_mem_of_ne_nil _ hne
    refine ⟨c, ?_, List.all_eq_true.mp h.fraction c hc⟩
    cases hpoint : n.fraction <;> simp_all [text]

/-- A numeral does not end with the mark or the sign of an exponent. -/
theorem of_mem_getLast? (h : n.WellFormed) (hc : c ∈ n.text.getLast?) :
    c.isDigit = true ∨ c = '.' := by
  rw [text_eq] at hc
  cases hexponent : n.exponent with
  | none =>
    rw [hexponent, Option.map_none, Option.getD_none, List.append_nil] at hc
    exact (mantissa_of_scan h.scan_text).2 c (List.mem_of_getLast? hc)
  | some e =>
    have he := h.exponent e hexponent
    rw [hexponent, Option.map_some, Option.getD_some, Exponent.text, ← List.cons_append,
      ← List.append_assoc, List.getLast?_append_of_ne_nil _ he.digits_ne_nil] at hc
    exact .inl (List.all_eq_true.mp he.digits c (List.mem_of_getLast? hc))

end Numeral.WellFormed

namespace Formula

open Text (byte? slice? At)
open Binary64 (overflow)

namespace Literal

/-- A literal is the longest one at the head of a text. -/
structure Longest (l : Literal) (text : List Char) : Prop where
  /-- It is made of the parts that its text shows. -/
  wellFormed : l.numeral.WellFormed
  /-- It has the form of a literal. -/
  form : l.text ∈ Literal.form.matches'
  /-- It stands at the head of the text. -/
  head : l.text <+: text
  /-- No longer literal stands there. -/
  longest : ∀ u ∈ Literal.form.matches', u <+: text → u.length ≤ l.text.length

variable {l : Literal} {n : Numeral} {negative : Bool} {cs left : List Char} {c : Char}

/-- The numeral that is scanned makes the longest literal, with the minus sign in front of it if
there is one. -/
theorem longest_of_scan (h : Numeral.scan cs = some (n, left)) :
    Longest ⟨negative, n⟩ (if negative then '-' :: cs else cs) := by
  have hn := Numeral.wellFormed_of_scan h
  have htext := Numeral.text_append_of_scan h
  refine ⟨hn, mem_form.mpr ⟨_, hn, rfl⟩, ⟨left, ?_⟩, fun u hu hhead => ?_⟩
  · cases negative <;> simp [text, htext]
  · obtain ⟨⟨negative', m⟩, hm, rfl⟩ := mem_form.mp hu
    obtain ⟨c, v, hv, hc, -⟩ := hn.exists_cons
    obtain ⟨d, w, hw, hd, -⟩ := Numeral.WellFormed.exists_cons hm
    -- The signs agree, since no numeral begins with one.
    cases negative <;> cases negative'
    · exact Numeral.length_le_of_scan h hm hhead
    · rw [← htext, hv] at hhead
      exact absurd (List.cons_prefix_cons.mp hhead).1.symm hc
    · have hminus : d :: w <+: '-' :: cs := hw ▸ hhead
      exact absurd (List.cons_prefix_cons.mp hminus).1 hd
    · exact Nat.succ_le_succ (Numeral.length_le_of_scan h hm (List.cons_prefix_cons.mp hhead).2)

theorem exists_isDigit (h : l.numeral.WellFormed) : ∃ c ∈ l.text, c.isDigit = true := by
  obtain ⟨c, hc, hdigit⟩ := h.exists_isDigit
  refine ⟨c, ?_, hdigit⟩
  rw [text]
  split
  · exact List.mem_cons_of_mem _ hc
  · exact hc

theorem of_mem_getLast? (h : l.numeral.WellFormed) (hc : c ∈ l.text.getLast?) :
    c.isDigit = true ∨ c = '.' := by
  rw [text] at hc
  split at hc
  · rw [← List.singleton_append,
      List.getLast?_append_of_ne_nil _ (Numeral.text_ne_nil_of_scan h.scan_text)] at hc
    exact h.of_mem_getLast? hc
  · exact h.of_mem_getLast? hc

end Literal

namespace Token

/-- A number is found, or a literal refused. -/
def IsNumeric : Except Fault (Token × List Char) → Prop
  | .ok (.number _, _) => True
  | .error (.invalidNumber _) => True
  | _ => False

variable {size : Nat} {operand before : Bool} {c : Char} {rest text : List Char} {op : ProductOp}
  {f : Unary}

theorem not_isNumeric_sign? {found : Token × List Char} (h : sign? c rest = some found) :
    ¬ IsNumeric (.ok found) := by
  unfold sign? at h
  split at h <;> cases h <;> exact id

theorem not_isNumeric_wordOperator : ¬ IsNumeric (wordOperator before op rest) := by
  unfold wordOperator
  split <;> exact id

theorem not_isNumeric_functionName : ¬ IsNumeric (functionName f rest) := by
  unfold functionName
  split <;> exact id

/-- A word is no number. -/
theorem not_isNumeric_word : ¬ IsNumeric (word before text) := by
  simp only [word]
  split_ifs
  · exact id
  · exact not_isNumeric_wordOperator
  · exact not_isNumeric_wordOperator
  · exact not_isNumeric_functionName
  · exact not_isNumeric_functionName
  · exact id

/-- Numbers are found where numerals are scanned: behind a minus sign where an operand is due, and
anywhere without one. -/
theorem isSome_of_isNumeric (h : IsNumeric (lexeme size operand before c rest)) :
    (c = '-' ∧ operand = true ∧ (Numeral.scan rest).isSome = true) ∨
      c ≠ '-' ∧ (Numeral.scan (c :: rest)).isSome = true := by
  unfold lexeme at h
  split at h
  · rename_i found hsign
    exact absurd h (not_isNumeric_sign? hsign)
  · split at h
    · rename_i hminus
      split at h
      · rename_i result hnumber
        split at hnumber
        · rename_i hoperand
          refine .inl ⟨hminus, hoperand, ?_⟩
          rw [← Option.isSome_map, ← number?, hnumber]
          rfl
        · cases hnumber
      · exact absurd h id
    · rename_i hminus
      split at h
      · rename_i result hnumber
        refine .inr ⟨hminus, ?_⟩
        rw [← Option.isSome_map, ← number?, hnumber]
        rfl
      · split at h
        · exact absurd h not_isNumeric_word
        · exact absurd h id

namespace Walk

/-- A scanner sets out to scan a number. -/
inductive BeginsNumber (text : String) (k : Cursor) : Prop where
  /-- At the minus sign of a number that is an operand. -/
  | minus (hbyte : byte? text k.pos = some '-') (hoperand : startsOperand k.tokens = true)
    (hfollows : numberFollows text (k.pos + 1) = true) : BeginsNumber text k
  /-- At a digit. -/
  | digit {b : Char} (hbyte : byte? text k.pos = some b) (hdigit : b.isDigit = true) :
    BeginsNumber text k
  /-- At the point of a number. -/
  | point (hbyte : byte? text k.pos = some '.') (hfollows : numberFollows text k.pos = true) :
    BeginsNumber text k

/-- An iteration finds a number, or refuses a literal. -/
def YieldsNumber (text : String) (k : Cursor) : Prop :=
  (∃ x stop, iterate text k = pure (.inl ⟨stop, k.tokens ++ [.number x]⟩)) ∨
    ∃ literal, iterate text k = throw (.invalidNumber literal)

variable {text : String} {k : Cursor} {c b : Char} {rest : List Char} {fault : Fault}

/-- At a character that is no space a token is added. -/
theorem iterate_of_not_space (hbyte : byte? text k.pos = some b) (hb : isSpace b = false) :
    iterate text k = token text k b >>= fun found =>
      return .inl ⟨found.2, k.tokens ++ [found.1]⟩ := by
  simp only [iterate, hbyte]
  exact if_neg (by simp [hb])

/-- A number that follows begins with a digit or a point. -/
theorem isDigit_or_eq_of_numberFollows {pos : Nat} (h : numberFollows text pos = true) :
    ∃ b, byte? text pos = some b ∧ (b.isDigit = true ∨ b = '.') := by
  rw [numberFollows] at h
  cases hbyte : byte? text pos <;> simp_all
  exact h.imp_right And.left

/-- A scanner that sets out to scan a number goes on behind it. -/
theorem BeginsNumber.iterate_eq (h : BeginsNumber text k) :
    iterate text k = scanNumber text k.pos >>= fun found =>
      return .inl ⟨found.2, k.tokens ++ [found.1]⟩ := by
  cases h with
  | minus hbyte hoperand hfollows =>
    rw [iterate_of_not_space hbyte (by decide)]
    simp only [token, hoperand, hfollows, Bool.and_self, if_true]
  | @digit b hbyte hdigit =>
    have hmark : b ∉ marks := fun hb => by
      have hall : ∀ c ∈ marks, c.isDigit = false := Shape.forall_mem_of_all (by decide)
      simp [hall b hb] at hdigit
    have hspace : isSpace b = false := by
      by_contra hspace
      have hall : ∀ c, isSpace c = true → c.isDigit = false := fun c hc => by
        simp only [isSpace, Bool.or_eq_true, beq_iff_eq] at hc
        rcases hc with (((rfl | rfl) | rfl) | rfl) | rfl <;> decide
      simp [hall b (Bool.not_eq_false _ ▸ hspace)] at hdigit
    rw [iterate_of_not_space hbyte hspace, token_of_not_mark hmark, hdigit]
    rfl
  | point hbyte hfollows =>
    rw [iterate_of_not_space hbyte (by decide), token_of_not_mark (by decide), hfollows]
    rfl

/-- Where a scanner sets out to scan a number, a numeral is scanned, with a minus sign in front of
it only where an operand is due. -/
theorem BeginsNumber.exists_scan (h : BeginsNumber text k) (hrest : At text k.pos rest) :
    ∃ negative cs n left, rest = (if negative then '-' :: cs else cs) ∧
      Numeral.scan cs = some (n, left) ∧ (negative = true → startsOperand k.tokens = true) := by
  have hplain (hfollows : numberFollows text k.pos = true) :
      ∃ negative cs n left, rest = (if negative then '-' :: cs else cs) ∧
        Numeral.scan cs = some (n, left) ∧
          (negative = true → startsOperand k.tokens = true) := by
    rw [numberFollows_eq hrest] at hfollows
    obtain ⟨⟨n, left⟩, hscan⟩ := Option.isSome_iff_exists.mp hfollows
    exact ⟨false, rest, n, left, rfl, hscan, by simp⟩
  cases h with
  | minus hbyte hoperand hfollows =>
    have hminus : rest.head? = some '-' :=
      (hrest.any_byte?_eq (by decide)).mp (by rw [hbyte]; rfl)
    obtain ⟨cs, rfl⟩ := List.head?_eq_some_iff.mp hminus
    have hnext : At text (k.pos + 1) cs := hrest.cons (by decide)
    rw [numberFollows_eq hnext] at hfollows
    obtain ⟨⟨n, left⟩, hscan⟩ := Option.isSome_iff_exists.mp hfollows
    exact ⟨true, cs, n, left, rfl, hscan, fun _ => hoperand⟩
  | digit hbyte hdigit => exact hplain (by simp [numberFollows, hbyte, hdigit])
  | point hbyte hfollows => exact hplain hfollows

/-- A number is found, or a literal refused, only where a scanner sets out to scan a number. -/
theorem BeginsNumber.of_isNumeric (h : At text k.pos (c :: rest))
    (hnumeric : IsNumeric (lexeme (byteSize text.toList) (startsOperand k.tokens)
      (spaced text k.pos) c rest)) : BeginsNumber text k := by
  rcases isSome_of_isNumeric hnumeric with ⟨rfl, hoperand, hscan⟩ | ⟨-, hscan⟩
  · have hbyte := (h.any_byte?_eq (c := '-') (by decide)).mpr rfl
    obtain ⟨b, hbyte, hb⟩ := Option.any_eq_true _ _ |>.mp hbyte
    have hnext : At text (k.pos + 1) rest := h.cons (by decide)
    exact .minus (by rw [hbyte, beq_iff_eq.mp hb]) hoperand ((numberFollows_eq hnext).trans hscan)
  · have hfollows := (numberFollows_eq h).trans hscan
    obtain ⟨b, hbyte, hdigit | rfl⟩ := isDigit_or_eq_of_numberFollows hfollows
    · exact .digit hbyte hdigit
    · exact .point hbyte hfollows

/-- What a scanner makes of a literal. -/
structure Scans (text : String) (k : Cursor) (l : Literal) : Prop where
  /-- The literal is what is sliced. -/
  slice : slice? text k.pos (numberEnd text k.pos) = some (.ofList l.text)
  /-- A minus sign is part of it only where an operand is due. -/
  operand : l.negative = true → startsOperand k.tokens = true
  /-- It becomes a number, unless the reader of numbers refuses it. -/
  outcome : iterate text k = match Numeral.read? (Text.trim l.text) with
    | some x => pure (.inl ⟨numberEnd text k.pos, k.tokens ++ [.number x]⟩)
    | none => throw (.invalidNumber (.ofList l.text))
  /-- The reader understands it, and refuses only what is rounded to infinity. -/
  refused : Numeral.read? (Text.trim l.text) = none ↔ overflow ≤ l.numeral.exactValue

/-- Where a scanner sets out to scan a number, it scans the longest literal. -/
theorem BeginsNumber.exists_longest (h : BeginsNumber text k) (hrest : At text k.pos rest) :
    ∃ l : Literal, l.Longest rest ∧ Scans text k l := by
  obtain ⟨negative, cs, n, left, rfl, hscan, hoperand⟩ := h.exists_scan hrest
  have hn := Numeral.wellFormed_of_scan hscan
  have hstop := numberEnd_at hrest hscan
  have hstart := literal_at hrest hscan
  refine ⟨⟨negative, n⟩, Literal.longest_of_scan hscan, hstart.slice?_eq hstop, hoperand, ?_, ?_⟩
  · rw [h.iterate_eq, scanNumber, slice_bind hstart hstop, String.toList_ofList]
    cases Numeral.read? (Text.trim (Literal.mk negative n).text) <;> rfl
  · rw [trim_literal hn]
    exact (hn.read?_text negative).symm ▸ Numeral.value?_eq_none_iff

/-- Where a literal is scanned there is a number or the fault of one. -/
theorem YieldsNumber.of_scans {l : Literal} (h : Scans text k l) : YieldsNumber text k := by
  have houtcome := h.outcome
  split at houtcome
  · exact .inl ⟨_, _, houtcome⟩
  · exact .inr ⟨_, houtcome⟩

/-- A literal that is refused could not be read as a number. -/
theorem Scans.of_throw {l : Literal} {literal : String} (h : Scans text k l)
    (hthrow : iterate text k = throw (.invalidNumber literal)) :
    Numeral.read? (Text.trim l.text) = none ∧ String.ofList l.text = literal := by
  have houtcome := h.outcome
  rw [hthrow] at houtcome
  split at houtcome
  · cases houtcome
  · rename_i hread
    cases houtcome
    exact ⟨hread, rfl⟩

theorem eq_of_pure_inl {k k' : Cursor}
    (h : (pure (.inl k) : Walk (Cursor ⊕ List Token)) = pure (.inl k')) : k = k' :=
  Sum.inl.inj (Except.ok.inj (Option.some.inj h))

/-- A number is found, or a literal refused, exactly where a scanner sets out to scan a number. -/
theorem beginsNumber_iff (h : At text k.pos rest) : BeginsNumber text k ↔ YieldsNumber text k := by
  constructor
  · intro hbegins
    obtain ⟨l, -, hscans⟩ := hbegins.exists_longest h
    exact .of_scans hscans
  · intro hyields
    cases rest with
    | nil =>
      rw [YieldsNumber, iterate_nil h] at hyields
      obtain ⟨x, stop, heq⟩ | ⟨literal, heq⟩ := hyields <;> cases heq
    | cons c rest =>
      cases hc : isSpace c with
      | true =>
        rw [YieldsNumber, iterate_space h hc] at hyields
        obtain ⟨x, stop, heq⟩ | ⟨literal, heq⟩ := hyields
        · have hsame : k.tokens = k.tokens ++ [.number x] :=
            congrArg Cursor.tokens (eq_of_pure_inl heq)
          simp at hsame
        · cases heq
      | false =>
        refine .of_isNumeric h ?_
        have hstep := iterate_token h hc
        split at hstep
        · rename_i t left hlexeme
          obtain ⟨stop, hiterate, -⟩ := hstep
          rw [YieldsNumber, hiterate] at hyields
          obtain ⟨x, stop', heq⟩ | ⟨literal, heq⟩ := hyields
          · have hsame : k.tokens ++ [t] = k.tokens ++ [.number x] :=
              congrArg Cursor.tokens (eq_of_pure_inl heq)
            obtain rfl : t = .number x := by simpa using hsame
            rw [hlexeme]
            trivial
          · cases heq
        · rename_i fault hlexeme
          rw [YieldsNumber, hstep] at hyields
          obtain ⟨x, stop, heq⟩ | ⟨literal, heq⟩ := hyields
          · cases heq
          · cases heq
            rw [hlexeme]
            trivial

/-- A scan that fails does so at a cursor that it comes to. -/
theorem exists_throw (hk : Reached text k)
    (h : (scanFrom text k).run = some (.error fault)) :
    ∃ k', Reached text k' ∧ iterate text k' = throw fault := by
  induction hleft : byteSize text.toList - k.pos using Nat.strongRecOn generalizing k with
  | _ n ih =>
    obtain ⟨rest, hrest⟩ := hk.exists_at
    rw [scanFrom_eq] at h
    obtain ⟨k', left, hnext, hlt, hat⟩ | ⟨tokens, hlast⟩ | ⟨fault', hthrow⟩ := iterate_at hrest
    · have hsize := hat.add_byteSize
      rw [hnext, pure_bind] at h
      exact ih _ (by omega) (hk.next hnext) h rfl
    · rw [hlast, pure_bind] at h
      cases h
    · rw [hthrow] at h
      cases h
      exact ⟨k, hk, hthrow⟩

/-- Wherever a scan of a text sets out to scan a number, it slices the longest literal there, with
a minus sign only where an operand is due. The literal has a digit, and it ends with a digit or a
point; it is in the form that a reader of numbers accepts. Numbers are found, and literals refused,
at those places only, and a scan fails with a literal only if that is rounded to infinity. -/
theorem scans_longest_literal (text : String) :
    (∀ k, Reached text k → (BeginsNumber text k ↔ YieldsNumber text k)) ∧
      (∀ k, Reached text k → BeginsNumber text k → ∃ rest, At text k.pos rest ∧
        ∃ l : Literal, l.Longest rest ∧ Scans text k l ∧
          (∃ c ∈ l.text, c.isDigit = true) ∧
          (∀ c ∈ l.text.getLast?, c.isDigit = true ∨ c = '.') ∧
          l.text ∈ Numeral.readableForm.matches') ∧
      ∀ literal, Token.scan text.toList = .error (.invalidNumber literal) →
        ∃ k l, Reached text k ∧ BeginsNumber text k ∧ Scans text k l ∧
          String.ofList l.text = literal ∧ overflow ≤ l.numeral.exactValue := by
  refine ⟨fun k hk => ?_, fun k hk hbegins => ?_, fun literal hscan => ?_⟩
  · obtain ⟨rest, hrest⟩ := hk.exists_at
    exact beginsNumber_iff hrest
  · obtain ⟨rest, hrest⟩ := hk.exists_at
    obtain ⟨l, hlongest, hscans⟩ := hbegins.exists_longest hrest
    have hl := hlongest.wellFormed
    exact ⟨rest, hrest, l, hlongest, hscans, Literal.exists_isDigit hl,
      fun c => Literal.of_mem_getLast? hl, Literal.mem_readableForm hl⟩
  · have hwalk := scan_eq text
    rw [hscan] at hwalk
    obtain ⟨k, hk, hthrow⟩ := exists_throw .start hwalk
    obtain ⟨rest, hrest⟩ := hk.exists_at
    have hbegins := (beginsNumber_iff hrest).mpr (.inr ⟨literal, hthrow⟩)
    obtain ⟨l, -, hscans⟩ := hbegins.exists_longest hrest
    obtain ⟨hrefused, rfl⟩ := hscans.of_throw hthrow
    exact ⟨k, l, hk, hbegins, hscans, rfl, hscans.refused.mp hrefused⟩

/-- A number in front of an exponent without digits, and a literal that is too large, in front of a
mark. -/
theorem scans_longest_literal_marks :
    (∃ rest, At "-1.5e+" 0 rest ∧ ∃ l : Literal, l.Longest rest ∧ Scans "-1.5e+" ⟨0, []⟩ l) ∧
      ∃ k l, Reached "1e400e" k ∧ Scans "1e400e" k l ∧ String.ofList l.text = "1e400" ∧
        overflow ≤ l.numeral.exactValue := by
  have hbegins : BeginsNumber "-1.5e+" ⟨0, []⟩ :=
    .minus (by decide +kernel) (by decide) (by decide +kernel)
  have hlexeme : lexeme 6 true false '1' "e400e".toList = .error (.invalidNumber "1e400") := by
    decide +kernel
  have hscan : Token.scan "1e400e".toList = .error (.invalidNumber "1e400") :=
    scanFrom_error (by decide) hlexeme
  obtain ⟨rest, hrest, l, hlongest, hscans, -⟩ :=
    (scans_longest_literal "-1.5e+").2.1 _ .start hbegins
  obtain ⟨k, l', hk, -, hscans', hliteral, hlarge⟩ :=
    (scans_longest_literal "1e400e").2.2 _ hscan
  exact ⟨⟨rest, hrest, l, hlongest, hscans⟩, k, l', hk, hscans', hliteral, hlarge⟩

end Walk

end Token

end Formula

end Spreadsheet
