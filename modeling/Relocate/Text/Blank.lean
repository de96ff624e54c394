/-!
# Blank characters

A character is blank when Unicode gives it the property `White_Space`; the
property has 25 members in ten ranges. `trim` cuts the blanks at both ends of
a text.
-/
namespace Relocate.Text

/-- The ranges of `White_Space`, both ends included, in increasing order. -/
def blankRanges : List (Nat × Nat) :=
  [(0x09, 0x0D), (0x20, 0x20), (0x85, 0x85), (0xA0, 0xA0), (0x1680, 0x1680),
   (0x2000, 0x200A), (0x2028, 0x2029), (0x202F, 0x202F), (0x205F, 0x205F), (0x3000, 0x3000)]

def isBlank (c : Char) : Bool :=
  blankRanges.any fun r => r.1 ≤ c.toNat && c.toNat ≤ r.2

example : (blankRanges.map fun r => r.2 + 1 - r.1).sum = 25 := by decide

/-- The text without its leading blanks. -/
def trimLeft (t : List Char) : List Char := t.dropWhile isBlank

/-- The text without the blanks at either end. -/
def trim (t : List Char) : List Char := (trimLeft (trimLeft t).reverse).reverse

end Relocate.Text
