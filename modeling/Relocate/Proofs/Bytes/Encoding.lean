import Relocate.Bytes.Basic
import Relocate.Clause.Scan

/-!
# What a byte tells about its character

A byte below `0x80` is a character of its own; every byte of any other
character is `0x80` or above. So a test that treats all characters beyond
ASCII alike can be made byte by byte (`Bytewise`), and reading while such a
test holds never stops inside a character (`takeWhile_encode`).

A slice exists when both its ends fall between characters (`cut?`).
-/
namespace Relocate.Bytes

open Text

/-! ## Encoding -/

@[simp] theorem encode_nil : encode [] = [] := rfl

@[simp] theorem encode_cons (c : Char) (t : List Char) :
    encode (c :: t) = String.utf8EncodeChar c ++ encode t := rfl

@[simp] theorem encode_append (u v : List Char) : encode (u ++ v) = encode u ++ encode v :=
  List.flatMap_append

@[simp] theorem length_encode (t : List Char) : (encode t).length = byteLength t := by
  induction t with
  | nil => rfl
  | cons c t ih => simp [ih]

theorem toByteArray_eq (text : String) : text.toByteArray = (encode text.toList).toByteArray := by
  conv => lhs; rw [← String.ofList_toList (s := text)]
  rw [String.toByteArray_ofList]
  rfl

theorem utf8ByteSize_eq (text : String) : text.utf8ByteSize = byteLength text.toList := by
  rw [← String.size_toByteArray, toByteArray_eq, List.size_toByteArray, length_encode]

theorem utf8Size_of_ascii {c : Char} (h : isBeyondAscii c = false) : c.utf8Size = 1 := by
  rw [Char.utf8Size_eq_one_iff, UInt32.le_iff_toNat_le]
  have hlt : c.toNat < 128 := by simpa [isBeyondAscii] using h
  have hnat : c.toNat = c.val.toNat := rfl
  have hmax : (127 : UInt32).toNat = 127 := rfl
  omega

@[simp] theorem toNat_ofUInt8 (b : UInt8) : (Char.ofUInt8 b).toNat = b.toNat := by
  show b.toUInt32.toNat = b.toNat
  simp

/-- A character of ASCII is encoded as itself. -/
theorem utf8EncodeChar_of_ascii {c : Char} (h : isBeyondAscii c = false) :
    ∃ b, String.utf8EncodeChar c = [b] ∧ Char.ofUInt8 b = c := by
  refine ⟨_, String.utf8EncodeChar_eq_singleton (utf8Size_of_ascii h), Char.toNat_inj.mp ?_⟩
  have hlt : c.toNat < 128 := by simpa [isBeyondAscii] using h
  rw [toNat_ofUInt8, UInt32.toNat_toUInt8]
  exact Nat.mod_eq_of_lt (show c.toNat < 2 ^ 8 by omega)

theorem beyond_or (b mark : UInt8) (h : 0x80 ≤ mark.toNat) :
    isBeyondAscii (Char.ofUInt8 (b ||| mark)) := by
  have hle : mark.toNat ≤ (b ||| mark).toNat := by
    rw [UInt8.toNat_or]
    exact Nat.right_le_or
  simp only [isBeyondAscii, toNat_ofUInt8, decide_eq_true_eq]
  omega

/-- Every byte of a character beyond ASCII is beyond ASCII. -/
theorem beyond_of_mem_utf8EncodeChar {c : Char} (h : isBeyondAscii c) {b : UInt8}
    (hb : b ∈ String.utf8EncodeChar c) : isBeyondAscii (Char.ofUInt8 b) := by
  have hsize : c.utf8Size ≠ 1 := by
    intro hone
    have hle : c.toNat ≤ 127 := UInt32.le_iff_toNat_le.mp (Char.utf8Size_eq_one_iff.mp hone)
    simp only [isBeyondAscii, decide_eq_true_eq] at h
    omega
  have hpos := c.utf8Size_pos
  have hle := c.utf8Size_le_four
  -- The encoding has two, three or four bytes, each marked by its upper bits.
  obtain h2 | h3 | h4 : c.utf8Size = 2 ∨ c.utf8Size = 3 ∨ c.utf8Size = 4 := by omega
  · rw [String.utf8EncodeChar_eq_cons_cons h2] at hb
    simp only [List.mem_cons, List.not_mem_nil, or_false] at hb
    rcases hb with rfl | rfl <;> exact beyond_or _ _ (by decide)
  · rw [String.utf8EncodeChar_eq_cons_cons_cons h3] at hb
    simp only [List.mem_cons, List.not_mem_nil, or_false] at hb
    rcases hb with rfl | rfl | rfl <;> exact beyond_or _ _ (by decide)
  · rw [String.utf8EncodeChar_eq_cons_cons_cons_cons h4] at hb
    simp only [List.mem_cons, List.not_mem_nil, or_false] at hb
    rcases hb with rfl | rfl | rfl | rfl <;> exact beyond_or _ _ (by decide)

/-! ## Tests on bytes -/

/-- A test that does not tell characters beyond ASCII apart. -/
def Bytewise (p : Char → Bool) : Prop :=
  ∀ c d, isBeyondAscii c → isBeyondAscii d → p c = p d

/-- Each byte of a character passes the test exactly when the character does. -/
theorem Bytewise.eq_of_mem {p : Char → Bool} (hp : Bytewise p) {c : Char} {b : UInt8}
    (hb : b ∈ String.utf8EncodeChar c) : p (Char.ofUInt8 b) = p c := by
  cases h : isBeyondAscii c with
  | false =>
    obtain ⟨b', hencode, hchar⟩ := utf8EncodeChar_of_ascii h
    rw [hencode, List.mem_singleton] at hb
    rw [hb, hchar]
  | true => exact hp _ _ (beyond_of_mem_utf8EncodeChar h hb) h

/-- Reading bytes while a test holds reads whole characters. -/
theorem takeWhile_encode {p : Char → Bool} (hp : Bytewise p) (t : List Char) :
    (encode t).takeWhile (fun b => p (Char.ofUInt8 b)) = encode (t.takeWhile p) := by
  induction t with
  | nil => rfl
  | cons c t ih =>
    rw [encode_cons]
    cases hc : p c with
    | true =>
      rw [List.takeWhile_append_of_pos fun b hb => (hp.eq_of_mem hb).trans hc, ih,
        List.takeWhile_cons_of_pos hc, encode_cons]
    | false =>
      obtain ⟨b, bs, hencode⟩ := List.exists_cons_of_ne_nil (String.utf8EncodeChar_ne_nil (c := c))
      have hb : p (Char.ofUInt8 b) = false := (hp.eq_of_mem (by simp [hencode])).trans hc
      simp [hencode, hb, hc]

theorem ne_of_beyond {c d : Char} (hc : isBeyondAscii c) (hd : isBeyondAscii d = false) :
    c ≠ d := by
  intro h
  simp [h, hd] at hc

theorem bytewise_eq {d : Char} (hd : isBeyondAscii d = false) : Bytewise (· == d) := by
  intro c c' hc hc'
  simp [beq_eq_false_iff_ne.mpr (ne_of_beyond hc hd), beq_eq_false_iff_ne.mpr (ne_of_beyond hc' hd)]

/-! ## Slices -/

theorem isBoundary_iff {text : String} {i : Nat} :
    IsBoundary text i ↔ ∃ u v, text.toList = u ++ v ∧ i = byteLength u := by
  rw [IsBoundary, String.Pos.Raw.isValid_iff_exists_append]
  constructor
  · rintro ⟨s, s', rfl, hi⟩
    refine ⟨s.toList, s'.toList, by simp, ?_⟩
    rw [← utf8ByteSize_eq]
    exact congrArg String.Pos.Raw.byteIdx hi
  · rintro ⟨u, v, ht, rfl⟩
    refine ⟨String.ofList u, String.ofList v, ?_, ?_⟩
    · rw [← String.ofList_append, ← ht, String.ofList_toList]
    · refine String.Pos.Raw.ext ?_
      show byteLength u = (String.ofList u).utf8ByteSize
      rw [utf8ByteSize_eq, String.toList_ofList]

theorem isBoundary_of_split {text : String} {u v : List Char} (h : text.toList = u ++ v) :
    IsBoundary text (byteLength u) := isBoundary_iff.mpr ⟨u, v, h, rfl⟩

theorem fromUTF8?_toByteArray (s : String) : String.fromUTF8? s.toByteArray = some s := by
  rw [String.fromUTF8?, dif_pos s.isValidUTF8]
  rfl

/-- The bytes of a part of the text are sliced out as that part. -/
theorem cut?_of_split {text : String} {u v w : List Char} (h : text.toList = u ++ (v ++ w)) :
    cut? text (byteLength u) (byteLength u + byteLength v) = some v := by
  have hu : IsBoundary text (byteLength u) := isBoundary_of_split h
  have hv : IsBoundary text (byteLength u + byteLength v) := by
    simpa using isBoundary_of_split (show text.toList = (u ++ v) ++ w by simp [h])
  have hbytes : text.toUTF8 = (String.ofList u).toByteArray ++
      ((String.ofList v).toByteArray ++ (String.ofList w).toByteArray) := by
    rw [← String.toByteArray_append, ← String.toByteArray_append, ← String.ofList_append,
      ← String.ofList_append, ← h, String.ofList_toList, String.toUTF8_eq_toByteArray]
  have hsize : ∀ t : List Char, byteLength t = (String.ofList t).toByteArray.size := fun t => by
    rw [String.size_toByteArray, utf8ByteSize_eq, String.toList_ofList]
  have hslice : text.toUTF8.extract (byteLength u) (byteLength u + byteLength v) =
      (String.ofList v).toByteArray := by
    rw [hbytes, hsize u, hsize v]
    exact (ByteArray.extract_append_size_add (i := 0)).trans (ByteArray.extract_append_eq_left rfl)
  rw [cut?, if_pos ⟨Nat.le_add_right _ _, hu, hv⟩, hslice, fromUTF8?_toByteArray]
  simp

end Relocate.Bytes
