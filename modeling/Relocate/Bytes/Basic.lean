import Relocate.Text.Cursor

/-!
# Texts as bytes

The UTF-8 encoding of a text, tests on the byte at an offset, and the slices
of a text between offsets. A byte is tested on its own, without regard to the
character it belongs to; a slice exists when both its ends fall between
characters.
-/
namespace Relocate.Bytes

/-- The bytes of characters. -/
def encode (t : List Char) : List UInt8 := t.flatMap String.utf8EncodeChar

/-- The bytes of a text. -/
def bytes (text : String) : List UInt8 := text.toUTF8.data.toList

/-- The byte at an offset, as the character of that code. -/
def at? (bs : List UInt8) (i : Nat) : Option Char := bs[i]?.map Char.ofUInt8

/-- The first offset from `i` on whose byte fails the test, or the end. -/
def skipWhile (p : Char → Bool) (bs : List UInt8) (i : Nat) : Nat :=
  i + ((bs.drop i).takeWhile fun b => p (Char.ofUInt8 b)).length

/-- The first offset from `i` on whose byte passes the test, or the end. There is no such
offset when `i` lies beyond the end. -/
def position? (p : Char → Bool) (bs : List UInt8) (i : Nat) : Option Nat :=
  if i ≤ bs.length then some (skipWhile (fun c => !p c) bs i) else none

theorem lt_length_of_at? {bs : List UInt8} {i : Nat} {c : Char} (h : at? bs i = some c) :
    i < bs.length := by
  unfold at? at h
  by_cases hi : i < bs.length
  · exact hi
  · simp [List.getElem?_eq_none (Nat.not_lt.mp hi)] at h

/-! ## Slices -/

/-- Whether an offset lies between two characters, or at an end of the text. -/
def IsBoundary (text : String) (i : Nat) : Prop := String.Pos.Raw.IsValid text ⟨i⟩

instance (text : String) (i : Nat) : Decidable (IsBoundary text i) :=
  inferInstanceAs (Decidable (String.Pos.Raw.IsValid text ⟨i⟩))

/-- The slice of a text from one byte offset to another, if there is one. -/
def cut? (text : String) (i j : Nat) : Option (List Char) :=
  if i ≤ j ∧ IsBoundary text i ∧ IsBoundary text j then
    (String.fromUTF8? (text.toUTF8.extract i j)).map String.toList
  else none

end Relocate.Bytes
