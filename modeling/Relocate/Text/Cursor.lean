import Relocate.Text.Blank

/-!
# Positions in a text

A `Cursor` is a text split in two: what lies behind (nearest character
first) and what lies ahead. Offsets count bytes of the UTF-8 encoding, lines
and columns count from one, and a column counts characters. A line ends at a
line feed; the line feed belongs to no line's text.

* `Cursor.text_move`: moving keeps the text.
* `Cursor.seek?` fails exactly when the offset falls inside a character;
  offsets beyond the end mean the end.
-/
namespace Relocate.Text

/-- The length of the UTF-8 encoding. -/
def byteLength : List Char → Nat
  | [] => 0
  | c :: t => c.utf8Size + byteLength t

@[simp] theorem byteLength_nil : byteLength [] = 0 := rfl

@[simp] theorem byteLength_cons (c : Char) (t : List Char) :
    byteLength (c :: t) = c.utf8Size + byteLength t := rfl

@[simp] theorem byteLength_append (s t : List Char) :
    byteLength (s ++ t) = byteLength s + byteLength t := by
  induction s with
  | nil => simp
  | cons c s ih => simp [ih, Nat.add_assoc]

@[simp] theorem byteLength_reverse (t : List Char) : byteLength t.reverse = byteLength t := by
  induction t with
  | nil => rfl
  | cons c t ih => simp [ih]; omega

/-- A place in a text. -/
structure Cursor where
  /-- The characters before the place, nearest first. -/
  behind : List Char
  /-- The characters from the place on. -/
  ahead : List Char
  deriving DecidableEq, Repr

namespace Cursor

/-- The start of a text. -/
def start (t : List Char) : Cursor := ⟨[], t⟩

/-- The whole text, wherever the cursor stands in it. -/
def text (c : Cursor) : List Char := c.behind.reverse ++ c.ahead

/-- The place `n` characters further on, at most the end. -/
def move (c : Cursor) (n : Nat) : Cursor :=
  ⟨(c.ahead.take n).reverse ++ c.behind, c.ahead.drop n⟩

@[simp] theorem text_start (t : List Char) : (start t).text = t := rfl

@[simp] theorem text_move (c : Cursor) (n : Nat) : (c.move n).text = c.text := by
  simp [text, move, List.append_assoc]

/-- Bytes before the place. -/
def offset (c : Cursor) : Nat := byteLength c.behind

def line (c : Cursor) : Nat := c.behind.count '\n' + 1

def column (c : Cursor) : Nat := (c.behind.takeWhile (· != '\n')).length + 1

/-- The line the cursor stands on, without the blanks around it. -/
def lineText (c : Cursor) : List Char :=
  trim ((c.behind.takeWhile (· != '\n')).reverse ++ c.ahead.takeWhile (· != '\n'))

/-- The search behind `seek?`, from a place with `behind` before it. -/
def seekFrom (behind : List Char) : List Char → Nat → Option Cursor
  | [], _ => some ⟨behind, []⟩
  | c :: cs, n =>
    if n = 0 then some ⟨behind, c :: cs⟩
    else if c.utf8Size ≤ n then seekFrom (c :: behind) cs (n - c.utf8Size)
    else none

/-- The place at a byte offset: the end when the offset lies beyond it, none
when it lies inside a character. -/
def seek? (t : List Char) (offset : Nat) : Option Cursor := seekFrom [] t offset

end Cursor

end Relocate.Text
