import Relocate.Text.Digits
import Relocate.Value

/-!
# Reading JSON

`read?` accepts the texts of RFC 8259 and nothing else. Recursion is bounded
by a number of steps that the length of the text always covers.
-/
namespace Relocate.Json

open Text

def isSpace (c : Char) : Bool := c == ' ' || c == '\t' || c == '\n' || c == '\r'

def skipSpace (t : List Char) : List Char := t.dropWhile isSpace

/-! ## Strings -/

/-- The code that four hexadecimal digits spell, and the text after them. -/
def readCode? (t : List Char) : Option (Nat × List Char) :=
  if (t.take 4).length = 4 then (number? 16 (t.take 4)).map (·, t.drop 4) else none

/-- The character of a `\u` escape: one code, or a surrogate pair. -/
def readUnicode? (t : List Char) : Option (Char × List Char) := do
  let (high, rest) ← readCode? t
  if 0xD800 ≤ high ∧ high < 0xDC00 then
    match rest with
    | '\\' :: 'u' :: rest =>
      let (low, rest) ← readCode? rest
      if 0xDC00 ≤ low ∧ low < 0xE000 then
        (char? (0x10000 + (high - 0xD800) * 0x400 + (low - 0xDC00))).map (·, rest)
      else none
    | _ => none
  else (char? high).map (·, rest)

/-- The character of an escape that follows a backslash. -/
def readEscape? : List Char → Option (Char × List Char)
  | '"' :: t => some ('"', t)
  | '\\' :: t => some ('\\', t)
  | '/' :: t => some ('/', t)
  | 'b' :: t => some ('\x08', t)
  | 'f' :: t => some ('\x0c', t)
  | 'n' :: t => some ('\n', t)
  | 'r' :: t => some ('\r', t)
  | 't' :: t => some ('\t', t)
  | 'u' :: t => readUnicode? t
  | _ => none

/-- The rest of a string after its opening quote. -/
def readString? : Nat → List Char → Option (List Char × List Char)
  | 0, _ => none
  | _ + 1, [] => none
  | fuel + 1, c :: t =>
    if c = '"' then some ([], t)
    else if c = '\\' then
      (readEscape? t).bind fun (d, rest) => (readString? fuel rest).map fun r => (d :: r.1, r.2)
    else if c.toNat < 0x20 then none
    else (readString? fuel t).map fun r => (c :: r.1, r.2)

/-! ## Numbers -/

/-- The digits at the front of a text, at least one. -/
def readDigits? (t : List Char) : Option (List Char × List Char) :=
  let digits := t.takeWhile Char.isDigit
  if digits.isEmpty then none else some (digits, t.dropWhile Char.isDigit)

/-- A fraction, if one follows. -/
def readFraction? : List Char → Option (List Char × List Char)
  | '.' :: t => (readDigits? t).map fun r => ('.' :: r.1, r.2)
  | t => some ([], t)

/-- An exponent, if one follows. -/
def readExponent? : List Char → Option (List Char × List Char)
  | c :: t =>
    if c = 'e' ∨ c = 'E' then
      match t with
      | d :: t' =>
        if d = '+' ∨ d = '-' then (readDigits? t').map fun r => (c :: d :: r.1, r.2)
        else (readDigits? t).map fun r => (c :: r.1, r.2)
      | [] => none
    else some ([], c :: t)
  | [] => some ([], [])

/-- A number. Minus zero counts as a number with a fraction. -/
def readNumber? (t : List Char) : Option (Value × List Char) := do
  let (sign, t) := match t with
    | '-' :: t => (['-'], t)
    | t => ([], t)
  let (whole, t) ← readDigits? t
  if whole.length ≠ 1 ∧ whole.head? = some '0' then none
  else
    let (fraction, t) ← readFraction? t
    let (exponent, t) ← readExponent? t
    if fraction.isEmpty && exponent.isEmpty then
      let n ← number? 10 whole
      if sign.isEmpty then some (.int n, t)
      else if n = 0 then some (.real "-0", t)
      else some (.int (-n), t)
    else some (.real (String.ofList (sign ++ whole ++ fraction ++ exponent)), t)

/-! ## Values -/

mutual

/-- A value at the front of a text, and the text after it. -/
def readValue? : Nat → List Char → Option (Value × List Char)
  | 0, _ => none
  | fuel + 1, t =>
    match skipSpace t with
    | '"' :: t => (readString? (t.length + 1) t).map fun r => (.str (String.ofList r.1), r.2)
    | '[' :: t =>
      match skipSpace t with
      | ']' :: t => some (.array [], t)
      | t => (readItems? fuel t).map fun r => (.array r.1, r.2)
    | '\x7b' :: t =>
      match skipSpace t with
      | '\x7d' :: t => some (.table [], t)
      | t => (readFields? fuel t).map fun r => (.table r.1, r.2)
    | 'n' :: 'u' :: 'l' :: 'l' :: t => some (.null, t)
    | 't' :: 'r' :: 'u' :: 'e' :: t => some (.bool true, t)
    | 'f' :: 'a' :: 'l' :: 's' :: 'e' :: t => some (.bool false, t)
    | t => readNumber? t

/-- The items of an array that is not empty, up to its closing bracket. -/
def readItems? : Nat → List Char → Option (List Value × List Char)
  | 0, _ => none
  | fuel + 1, t =>
    (readValue? fuel t).bind fun (v, t) =>
      match skipSpace t with
      | ',' :: t => (readItems? fuel t).map fun r => (v :: r.1, r.2)
      | ']' :: t => some ([v], t)
      | _ => none

/-- The fields of an object that is not empty, up to its closing brace. -/
def readFields? : Nat → List Char → Option (List (String × Value) × List Char)
  | 0, _ => none
  | fuel + 1, t =>
    match skipSpace t with
    | '"' :: t =>
      (readString? (t.length + 1) t).bind fun (name, t) =>
        match skipSpace t with
        | ':' :: t =>
          (readValue? fuel t).bind fun (v, t) =>
            match skipSpace t with
            | ',' :: t => (readFields? fuel t).map fun r => ((String.ofList name, v) :: r.1, r.2)
            | '\x7d' :: t => some ([(String.ofList name, v)], t)
            | _ => none
        | _ => none
    | _ => none

end

/-- The value that a whole text spells. -/
def read? (s : String) : Option Value :=
  match readValue? (2 * s.toList.length + 2) s.toList with
  | some (v, rest) => if (skipSpace rest).isEmpty then some v else none
  | none => none

end Relocate.Json
