import Relocate.Text.Digits
import Relocate.Value

/-!
# TOML texts, numbers and dates

Texts are read from the character after their opening quotes. Everything else
is a token of letters, digits and `+-_.:`, read as a whole: a truth value, a
whole number of 64 bits, a number with a fraction, or a date or time. A date
or time is kept as a table with one field.
-/
namespace Relocate.Toml

open Text

def isWhite (c : Char) : Bool := c == ' ' || c == '\t'

/-- A character that may stand for itself in a text or a comment. -/
def isPlain (c : Char) : Bool := c == '\t' || (0x20 ≤ c.toNat && c.toNat != 0x7F)

/-! ## Texts -/

def letterEscape? : Char → Option Char
  | 'b' => some '\x08'
  | 't' => some '\t'
  | 'n' => some '\n'
  | 'f' => some '\x0c'
  | 'r' => some '\r'
  | '"' => some '"'
  | '\\' => some '\\'
  | _ => none

/-- The character whose code hexadecimal digits spell. -/
def codeEscape? (digits : List Char) : Option Char := (number? 16 digits).bind char?

/-- Puts a character that may be missing in front of what was read after it. -/
def put? (c : Option Char) (r : Option (List Char × List Char)) :
    Option (List Char × List Char) :=
  c.bind fun c => r.map fun r => (c :: r.1, r.2)

/-- The rest of a text in quotation marks. -/
def readBasic? : List Char → Option (List Char × List Char)
  | [] => none
  | '"' :: t => some ([], t)
  | '\\' :: 'u' :: a :: b :: c :: d :: t => put? (codeEscape? [a, b, c, d]) (readBasic? t)
  | '\\' :: 'U' :: a :: b :: c :: d :: e :: f :: g :: h :: t =>
    put? (codeEscape? [a, b, c, d, e, f, g, h]) (readBasic? t)
  | '\\' :: c :: t => put? (letterEscape? c) (readBasic? t)
  | c :: t => if isPlain c then put? (some c) (readBasic? t) else none

/-- The rest of a text in apostrophes. -/
def readLiteral? : List Char → Option (List Char × List Char)
  | [] => none
  | '\'' :: t => some ([], t)
  | c :: t => if isPlain c then put? (some c) (readLiteral? t) else none

/-- The quotes beyond three that close a long text belong to it, at most two. -/
def closeLong (q : Char) : List Char → List Char × List Char
  | a :: b :: t =>
    if a = q ∧ b = q then ([a, b], t) else if a = q then ([a], b :: t) else ([], a :: b :: t)
  | [a] => if a = q then ([a], []) else ([], [a])
  | [] => ([], [])

/-- Whether a line end comes next, white space apart. -/
def endsLine (t : List Char) : Bool :=
  match t.dropWhile isWhite with
  | '\n' :: _ => true
  | '\r' :: '\n' :: _ => true
  | _ => false

/-- The rest of a long text in quotation marks. `joining` is on after a
backslash at the end of a line, and until something other than white space
and line ends comes. -/
def readLongBasic? (joining : Bool) : List Char → Option (List Char × List Char)
  | [] => none
  | '"' :: '"' :: '"' :: t => some (closeLong '"' t)
  | '\\' :: 'u' :: a :: b :: c :: d :: t =>
    put? (codeEscape? [a, b, c, d]) (readLongBasic? false t)
  | '\\' :: 'U' :: a :: b :: c :: d :: e :: f :: g :: h :: t =>
    put? (codeEscape? [a, b, c, d, e, f, g, h]) (readLongBasic? false t)
  | '\\' :: c :: t =>
    if endsLine (c :: t) then readLongBasic? true (c :: t)
    else put? (letterEscape? c) (readLongBasic? false t)
  | '\r' :: '\n' :: t =>
    if joining then readLongBasic? true t else put? (some '\n') (readLongBasic? false t)
  | c :: t =>
    if joining && (isWhite c || c == '\n') then readLongBasic? true t
    else if isPlain c || c == '\n' then put? (some c) (readLongBasic? false t)
    else none

/-- The rest of a long text in apostrophes. -/
def readLongLiteral? : List Char → Option (List Char × List Char)
  | [] => none
  | '\'' :: '\'' :: '\'' :: t => some (closeLong '\'' t)
  | '\r' :: '\n' :: t => put? (some '\n') (readLongLiteral? t)
  | c :: t => if isPlain c || c == '\n' then put? (some c) (readLongLiteral? t) else none

/-- A long text without the line end right after its opening quotes. -/
def dropLineEnd : List Char → List Char
  | '\n' :: t => t
  | '\r' :: '\n' :: t => t
  | t => t

/-! ## Numbers -/

/-- The digits of a group in which single underscores may divide digits. -/
def groupDigits? (isDigit : Char → Bool) : List Char → Option (List Char)
  | [] => none
  | [c] => if isDigit c then some [c] else none
  | c :: '_' :: t => if isDigit c then (groupDigits? isDigit t).map (c :: ·) else none
  | c :: t => if isDigit c then (groupDigits? isDigit t).map (c :: ·) else none

/-- A sign in front of a text: whether it is a minus, and the rest. -/
def splitSign : List Char → Bool × List Char
  | '-' :: t => (true, t)
  | '+' :: t => (false, t)
  | t => (false, t)

/-- Decimal digits without a needless zero in front. -/
def wholeDigits? (t : List Char) : Option (List Char) :=
  (groupDigits? Char.isDigit t).bind fun digits =>
    if digits.length ≠ 1 ∧ digits.head? = some '0' then none else some digits

/-- Whether a number is a signed one of 64 bits. -/
def fits (n : Int) : Bool := -9223372036854775808 ≤ n && n < 9223372036854775808

def readInBase? (base : Nat) (t : List Char) : Option Value := do
  let digits ← groupDigits? (fun c => (digit? base c).isSome) t
  let n ← number? base digits
  if fits n then some (.int n) else none

def readInt? : List Char → Option Value
  | '0' :: 'x' :: t => readInBase? 16 t
  | '0' :: 'o' :: t => readInBase? 8 t
  | '0' :: 'b' :: t => readInBase? 2 t
  | t => do
    let (negative, t) := splitSign t
    let n ← number? 10 (← wholeDigits? t)
    let n : Int := if negative then -n else n
    if fits n then some (.int n) else none

/-- Whether a decimal number lies beyond the largest double: the first number
that rounds to infinity is `2 ^ 1024 - 2 ^ 970`. -/
def overflows (digits : Nat) (exponent : Int) : Bool :=
  let size := (decimal digits).length + exponent
  if digits = 0 || size < 300 then false
  else if 310 < size then true
  else
    let limit := Nat.pow 2 1024 - Nat.pow 2 970
    if 0 ≤ exponent then limit ≤ digits * Nat.pow 10 exponent.toNat
    else limit * Nat.pow 10 (-exponent).toNat ≤ digits

def isGrouped (c : Char) : Bool := c.isDigit || c == '_'

/-- An exponent without its letter. -/
def exponentOf? (t : List Char) : Option Int := do
  let (negative, t) := splitSign t
  let n ← number? 10 (← groupDigits? Char.isDigit t)
  return if negative then -n else n

/-- The fraction digits and the exponent after the whole part, at least one of
the two. -/
def readTail? : List Char → Option (List Char × Int)
  | '.' :: t => do
    let fraction ← groupDigits? Char.isDigit (t.takeWhile isGrouped)
    match t.dropWhile isGrouped with
    | [] => some (fraction, 0)
    | c :: t => if c = 'e' ∨ c = 'E' then (exponentOf? t).map (fraction, ·) else none
  | c :: t => if c = 'e' ∨ c = 'E' then (exponentOf? t).map ([], ·) else none
  | [] => none

def readReal? (token : List Char) : Option Value := do
  let (negative, t) := splitSign token
  if t = "inf".toList ∨ t = "nan".toList then some (.real (String.ofList token))
  else
    let whole ← wholeDigits? (t.takeWhile isGrouped)
    let (fraction, exponent) ← readTail? (t.dropWhile isGrouped)
    let digits ← number? 10 (whole ++ fraction)
    if !negative && overflows digits (exponent - fraction.length) then none
    else some (.real (String.ofList token))

/-! ## Dates and times -/

/-- The number that the first `n` characters spell, all digits, and the rest. -/
def readFixed? (n : Nat) (t : List Char) : Option (Nat × List Char) :=
  if (t.take n).length = n then (number? 10 (t.take n)).map (·, t.drop n) else none

/-- A character that must come next. -/
def expect? (c : Char) : List Char → Option (List Char)
  | d :: t => if c = d then some t else none
  | [] => none

def daysIn (year month : Nat) : Nat :=
  if month = 2 then
    if year % 4 = 0 ∧ (year % 100 ≠ 0 ∨ year % 400 = 0) then 29 else 28
  else if month = 4 ∨ month = 6 ∨ month = 9 ∨ month = 11 then 30
  else 31

/-- What follows a date. -/
def skipDate? (t : List Char) : Option (List Char) := do
  let (year, t) ← readFixed? 4 t
  let (month, t) ← readFixed? 2 (← expect? '-' t)
  let (day, t) ← readFixed? 2 (← expect? '-' t)
  if 1 ≤ month ∧ month ≤ 12 ∧ 1 ≤ day ∧ day ≤ daysIn year month then some t else none

/-- What follows a time of day. -/
def skipTime? (t : List Char) : Option (List Char) := do
  let (hour, t) ← readFixed? 2 t
  let (minute, t) ← readFixed? 2 (← expect? ':' t)
  let (second, t) ← readFixed? 2 (← expect? ':' t)
  if hour ≤ 23 ∧ minute ≤ 59 ∧ second ≤ 60 then
    match t with
    | '.' :: t =>
      if (t.takeWhile Char.isDigit).isEmpty then none else some (t.dropWhile Char.isDigit)
    | t => some t
  else none

/-- What follows an offset from universal time, which may be absent. -/
def skipOffset? : List Char → Option (List Char)
  | 'Z' :: t | 'z' :: t => some t
  | '+' :: t | '-' :: t => do
    let (hour, t) ← readFixed? 2 t
    let (minute, t) ← readFixed? 2 (← expect? ':' t)
    if hour ≤ 23 ∧ minute ≤ 59 then some t else none
  | t => some t

def isDateTime (token : List Char) : Bool :=
  match skipDate? token with
  | some [] => true
  | some (c :: t) =>
    (c == 'T' || c == 't' || c == ' ') && ((skipTime? t).bind skipOffset?) == some []
  | none => skipTime? token == some []

/-- The field under which a date or time is kept. -/
def dateField : String := "$__toml_private_datetime"

/-! ## Tokens -/

def isTokenChar (c : Char) : Bool := c.isAlphanum || ['+', '-', '_', '.', ':'].contains c

/-- The token at the front of a text; a date takes the time after one space
with it. -/
def splitToken (t : List Char) : List Char × List Char :=
  let token := t.takeWhile isTokenChar
  match t.dropWhile isTokenChar with
  | ' ' :: c :: rest =>
    if skipDate? token == some [] && c.isDigit then
      (token ++ ' ' :: (c :: rest).takeWhile isTokenChar, (c :: rest).dropWhile isTokenChar)
    else (token, ' ' :: c :: rest)
  | rest => (token, rest)

def tokenValue? (token : List Char) : Option Value :=
  if token = "true".toList then some (.bool true)
  else if token = "false".toList then some (.bool false)
  else if isDateTime token then some (.table [(dateField, .str (String.ofList token))])
  else (readReal? token).or (readInt? token)

end Relocate.Toml
