/-!
# Digits

Numbers as text, in base ten and sixteen.
-/
namespace Relocate.Text

/-- Decimal digits, without leading zeros. -/
def decimal (n : Nat) : List Char := Nat.toDigits 10 n

/-- A number with its sign in front when it is negative. -/
def signedDecimal : Int → List Char
  | .ofNat n => decimal n
  | .negSucc n => '-' :: decimal (n + 1)

/-- The value of a digit in a base up to sixteen; letters in either case. -/
def digit? (base : Nat) (c : Char) : Option Nat :=
  let value :=
    if '0' ≤ c ∧ c ≤ '9' then c.toNat - '0'.toNat
    else if 'a' ≤ c ∧ c ≤ 'f' then c.toNat - 'a'.toNat + 10
    else if 'A' ≤ c ∧ c ≤ 'F' then c.toNat - 'A'.toNat + 10
    else base
  if value < base then some value else none

/-- The number that digits spell; none if one is no digit. -/
def number? (base : Nat) (t : List Char) : Option Nat :=
  t.foldlM (fun n c => (digit? base c).map (base * n + ·)) 0

/-- `n` in base sixteen with at least `width` digits, as lower-case letters. -/
def hex (width n : Nat) : List Char :=
  let digits := Nat.toDigits 16 n
  List.replicate (width - digits.length) '0' ++ digits

/-- `n` in base sixteen with at least `width` digits, as upper-case letters. -/
def upperHex (width n : Nat) : List Char := (hex width n).map Char.toUpper

/-- The character with a given code, if it is one. -/
def char? (n : Nat) : Option Char := if n.isValidChar then some (Char.ofNat n) else none

end Relocate.Text
