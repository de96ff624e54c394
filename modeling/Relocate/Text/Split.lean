/-!
# Cutting a text at a character
-/
namespace Relocate.Text

/-- The text after the last `c`; the whole text if there is none. -/
def afterLast (c : Char) (t : List Char) : List Char := (t.reverse.takeWhile (· != c)).reverse

/-- The texts before and after the last `c`. -/
def splitLast? (c : Char) (t : List Char) : Option (List Char × List Char) :=
  match t.reverse.dropWhile (· != c) with
  | [] => none
  | _ :: before => some (before.reverse, afterLast c t)

/-- The text without the `c`s at its end. -/
def trimEnd (c : Char) (t : List Char) : List Char := (t.reverse.dropWhile (· == c)).reverse

/-- The text up to and including the first `c`; the whole text if there is none. -/
def throughFirst (c : Char) : List Char → List Char
  | [] => []
  | d :: t => if d = c then [d] else d :: throughFirst c t

/-- What follows `p` in a text that starts with it. -/
def dropPrefix? : List Char → List Char → Option (List Char)
  | [], t => some t
  | _ :: _, [] => none
  | c :: p, d :: t => if c = d then dropPrefix? p t else none

theorem dropPrefix?_eq_some_iff {p t r : List Char} : dropPrefix? p t = some r ↔ t = p ++ r := by
  induction p generalizing t with
  | nil => simp [dropPrefix?, eq_comm]
  | cons c p ih =>
    cases t with
    | nil => simp [dropPrefix?]
    | cons d t =>
      by_cases h : c = d
      · simp [dropPrefix?, h, ih]
      · simp [dropPrefix?, h, Ne.symm h]

end Relocate.Text
