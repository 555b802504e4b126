import Mathlib.Tactic.SplitIfs
import Mathlib.Tactic.ByContra
import Spreadsheet.Formula.Token.Scan

/-!
# Texts byte by byte

A text is stored as bytes of UTF-8. A character of ASCII is one byte, its number, and no byte of
any other character is a number of ASCII; so a test for characters of ASCII says the same of a
character and of any of its bytes. A walk over the bytes that looks for such characters only meets
boundaries between characters, and there the text may be sliced.
-/

namespace Spreadsheet.Text

open Formula.Token (byteSize)

variable {text : String} {pos start stop : Nat} {c : Char} {before rest u left : List Char}
  {p : Char → Bool} {b : UInt8}

/-- The byte at a position, unless the text ends before it. The byte is shown as the character
with its number. -/
def byte? (text : String) (pos : Nat) : Option Char :=
  text.toByteArray.data[pos]?.map Char.ofUInt8

/-- A position between two characters, or at an end of the text. -/
def IsBoundary (text : String) (pos : Nat) : Prop := (⟨pos⟩ : String.Pos.Raw).IsValid text

instance : Decidable (IsBoundary text pos) :=
  decidable_of_iff _ String.Pos.Raw.isValid_eq_true_iff

/-- The text between two positions. There is none unless both are boundaries, in this order. -/
def slice? (text : String) (start stop : Nat) : Option String :=
  if h : IsBoundary text start ∧ IsBoundary text stop ∧ start ≤ stop then
    some (text.extract ⟨⟨start⟩, h.1⟩ ⟨⟨stop⟩, h.2.1⟩)
  else none

/-- Where the bytes of a class that follow a position end. -/
def skip (p : Char → Bool) (text : String) (pos : Nat) : Nat :=
  if (byte? text pos).any p then skip p text (pos + 1) else pos
termination_by text.toByteArray.data.size - pos
decreasing_by
  rename_i h
  have hpos : pos < text.toByteArray.data.size := by
    by_contra hend
    rw [byte?, Array.getElem?_eq_none (Nat.le_of_not_lt hend)] at h
    cases h
  omega

theorem byteSize_eq_foldl (text : List Char) (size : Nat) :
    text.foldl (fun size c => size + c.utf8Size) size = size + byteSize text := by
  induction text generalizing size with
  | nil => rfl
  | cons c text ih => rw [byteSize, List.foldl_cons, List.foldl_cons, ih, ih]; omega

theorem byteSize_cons (c : Char) (text : List Char) :
    byteSize (c :: text) = c.utf8Size + byteSize text := by
  rw [byteSize, List.foldl_cons, byteSize_eq_foldl, Nat.zero_add]

theorem byteSize_append (u v : List Char) : byteSize (u ++ v) = byteSize u + byteSize v := by
  rw [byteSize, List.foldl_append, byteSize_eq_foldl, ← byteSize]

/-- The bytes of a text. -/
def bytes (text : List Char) : List UInt8 := text.flatMap String.utf8EncodeChar

theorem length_bytes (text : List Char) : (bytes text).length = byteSize text := by
  induction text with
  | nil => rfl
  | cons c text ih =>
    rw [bytes, List.flatMap_cons, List.length_append, ← bytes, ih, byteSize_cons]
    simp

theorem toByteArray_eq (text : String) : text.toByteArray = (bytes text.toList).toByteArray := by
  conv_lhs => rw [← String.ofList_toList (s := text), String.toByteArray_ofList]
  rfl

/-- The byte at a position, found among the bytes of the characters. -/
theorem byte?_eq (text : String) (pos : Nat) :
    byte? text pos = (bytes text.toList)[pos]?.map Char.ofUInt8 := by
  rw [byte?, toByteArray_eq, List.data_toByteArray, List.getElem?_toArray]

theorem utf8ByteSize_eq (text : String) : text.utf8ByteSize = byteSize text.toList := by
  rw [← String.size_toByteArray, toByteArray_eq, ← length_bytes]
  simp

/-- A class of characters of ASCII. -/
def Ascii (p : Char → Bool) : Prop := ∀ c, p c = true → c.toNat < 128

theorem ascii_eq (c : Char) (hc : c.toNat < 128) : Ascii (· == c) := fun d hd => by
  rw [beq_iff_eq.mp hd]
  exact hc

theorem Ascii.or {q : Char → Bool} (hp : Ascii p) (hq : Ascii q) : Ascii fun c => p c || q c :=
  fun c hc => (Bool.or_eq_true_iff.mp hc).elim (hp c) (hq c)

theorem toNat_ofUInt8 (b : UInt8) : (Char.ofUInt8 b).toNat = b.toNat :=
  UInt8.toNat_toUInt32 b

/-- A character of ASCII is one byte, its number, and other characters have no such bytes. -/
theorem of_mem_utf8EncodeChar (hb : b ∈ String.utf8EncodeChar c) :
    Char.ofUInt8 b = c ∨ 128 ≤ c.toNat ∧ 128 ≤ (Char.ofUInt8 b).toNat := by
  rw [toNat_ofUInt8]
  change b ∈ if c.toNat ≤ 127 then _ else _ at hb
  split at hb
  · rename_i hc
    rw [List.mem_singleton] at hb
    refine .inl (Char.toNat_inj.mp ?_)
    rw [toNat_ofUInt8, hb]
    exact Nat.mod_eq_of_lt (show c.toNat < 256 by omega)
  · rename_i hc
    refine .inr ⟨by omega, ?_⟩
    -- The bytes of longer characters are marked by their first bit.
    split_ifs at hb <;> simp only [List.mem_cons, List.not_mem_nil, or_false] at hb <;>
      rcases hb with rfl | rfl | rfl | rfl <;> simp only [UInt8.toNat_ofNat'] <;> omega

/-- A class of characters of ASCII holds of a character as of its bytes. -/
theorem Ascii.apply_byte (hp : Ascii p) (hb : b ∈ String.utf8EncodeChar c) :
    p (Char.ofUInt8 b) = p c := by
  obtain h | ⟨hc, hb⟩ := of_mem_utf8EncodeChar hb
  · rw [h]
  · have hfalse : ∀ d : Char, 128 ≤ d.toNat → p d = false := fun d hd =>
      Bool.eq_false_iff.mpr fun hpd => absurd (hp d hpd) (Nat.not_lt.mpr hd)
    rw [hfalse _ hc, hfalse _ hb]

/-- What follows a position, which is a boundary. -/
def At (text : String) (pos : Nat) (rest : List Char) : Prop :=
  ∃ before, text.toList = before ++ rest ∧ byteSize before = pos

namespace At

theorem zero (text : String) : At text 0 text.toList := ⟨[], rfl, rfl⟩

theorem size (text : String) : At text text.utf8ByteSize [] :=
  ⟨text.toList, (List.append_nil _).symm, (utf8ByteSize_eq text).symm⟩

/-- Where whole characters are left there is a boundary. -/
theorem isBoundary (h : At text pos rest) : IsBoundary text pos := by
  obtain ⟨before, htext, rfl⟩ := h
  refine String.Pos.Raw.isValid_iff_exists_append.mpr ⟨.ofList before, .ofList rest, ?_, ?_⟩
  · rw [← String.ofList_append, ← htext, String.ofList_toList]
  · ext
    rw [String.byteIdx_rawEndPos, utf8ByteSize_eq, String.toList_ofList]

/-- The position and what follows it make up the size of the text. -/
theorem add_byteSize (h : At text pos rest) : pos + byteSize rest = byteSize text.toList := by
  obtain ⟨before, htext, rfl⟩ := h
  rw [htext, byteSize_append]

/-- Behind some characters the rest is left. -/
theorem append (h : At text pos (u ++ left)) : At text (pos + byteSize u) left := by
  obtain ⟨before, htext, rfl⟩ := h
  exact ⟨before ++ u, by rw [htext, List.append_assoc], byteSize_append before u⟩

/-- Between two positions lies what follows the first and not the second. -/
theorem slice?_eq (h : At text start (u ++ left)) (h' : At text stop left) :
    slice? text start stop = some (String.ofList u) := by
  have hstop := h'.add_byteSize
  have hstart := h.add_byteSize
  rw [byteSize_append] at hstart
  obtain rfl : stop = start + byteSize u := by omega
  rw [slice?, dif_pos ⟨h.isBoundary, h'.isBoundary, Nat.le_add_right _ _⟩]
  obtain ⟨before, htext, rfl⟩ := h
  have hbytes : text.toByteArray =
      before.utf8Encode ++ (u.utf8Encode ++ left.utf8Encode) := by
    rw [← List.utf8Encode_append, ← List.utf8Encode_append, ← htext, ← String.toByteArray_ofList,
      String.ofList_toList]
  have hsize : ∀ v : List Char, v.utf8Encode.size = byteSize v := fun v => by
    rw [← length_bytes, List.utf8Encode, List.size_toByteArray, bytes]
  have hextract := @ByteArray.extract_append_size_add before.utf8Encode
    (u.utf8Encode ++ left.utf8Encode) 0 (byteSize u)
  rw [Nat.add_zero, hsize, ← hsize u, ByteArray.extract_append_eq_left rfl, hsize u] at hextract
  refine congrArg some (String.toByteArray_inj.mp ?_)
  rw [String.toByteArray_ofList, ← hextract, ← hbytes]
  rfl

/-- The bytes ahead are those of the characters that are left. -/
theorem byte?_add (h : At text pos rest) (i : Nat) :
    byte? text (pos + i) = (bytes rest)[i]?.map Char.ofUInt8 := by
  obtain ⟨before, htext, rfl⟩ := h
  rw [byte?_eq, htext, bytes, List.flatMap_append, ← bytes, ← bytes, ← length_bytes,
    List.getElem?_append_right (Nat.le_add_right _ _), Nat.add_sub_cancel_left]

theorem byte?_nil (h : At text pos []) : byte? text pos = none := h.byte?_add 0

/-- The bytes behind a boundary are those of the character there. -/
theorem exists_byte (h : At text pos (c :: rest)) {i : Nat} (hi : i < c.utf8Size) :
    ∃ b ∈ String.utf8EncodeChar c, byte? text (pos + i) = some (Char.ofUInt8 b) := by
  have hlength : i < (String.utf8EncodeChar c).length := by simpa using hi
  refine ⟨_, List.getElem_mem hlength, ?_⟩
  rw [h.byte?_add, bytes, List.flatMap_cons, List.getElem?_append_left hlength,
    List.getElem?_eq_getElem hlength, Option.map_some]

/-- A test of any byte of a character tests the character. -/
theorem any_byte?_add (h : At text pos (c :: rest)) (hp : Ascii p) {i : Nat}
    (hi : i < c.utf8Size) : (byte? text (pos + i)).any p = p c := by
  obtain ⟨b, hb, hbyte⟩ := h.exists_byte hi
  rw [hbyte, Option.any_some, hp.apply_byte hb]

/-- A test of the byte at a boundary tests the character there. -/
theorem any_byte? (h : At text pos rest) (hp : Ascii p) :
    (byte? text pos).any p = rest.head?.any p := by
  cases rest with
  | nil => rw [h.byte?_nil]; rfl
  | cons c rest => exact h.any_byte?_add hp (Char.utf8Size_pos c)

/-- A byte at a boundary is a given character of ASCII if that character follows. -/
theorem any_byte?_eq (h : At text pos rest) (hc : c.toNat < 128) :
    (byte? text pos).any (· == c) = true ↔ rest.head? = some c := by
  rw [h.any_byte? (ascii_eq c hc)]
  cases rest <;> simp

/-- A test of the byte in front of a boundary tests the character there. -/
theorem any_byte?_before (h : At text pos (c :: rest)) (hp : Ascii p) :
    (byte? text (pos + c.utf8Size - 1)).any p = p c := by
  have hpos := Char.utf8Size_pos c
  rw [Nat.add_sub_assoc hpos]
  exact h.any_byte?_add hp (by omega)

/-- A character of ASCII is one byte long. -/
theorem cons (h : At text pos (c :: rest)) (hc : c.toNat < 128) : At text (pos + 1) rest := by
  have hsize : c.utf8Size = 1 := Char.utf8Size_eq_one_iff.mpr (Nat.le_of_lt_succ hc)
  have happend := h.append (u := [c])
  rwa [byteSize_cons, hsize] at happend

/-- The bytes of a class of characters of ASCII end where the characters end. -/
theorem skip (h : At text pos rest) (hp : Ascii p) :
    At text (Text.skip p text pos) (rest.dropWhile p) := by
  induction rest generalizing pos with
  | nil =>
    rw [Text.skip, h.byte?_nil]
    exact h
  | cons c rest ih =>
    rw [Text.skip, h.any_byte? hp]
    cases hc : p c with
    | true =>
      rw [List.dropWhile_cons_of_pos hc]
      simpa [hc] using ih (h.cons (hp c hc))
    | false =>
      rw [List.dropWhile_cons_of_neg (by simp [hc])]
      simpa [hc] using h

end At

end Spreadsheet.Text
