import Relocate.Fault
import Relocate.Text.Cursor
import Relocate.Text.Digits
import Relocate.Value

/-!
# Settings from the environment

A variable whose name starts with `REHOME__`, in any case, overrides a
setting: two underscores divide the names of sections and settings. Its value
is read as a small data language of its own: truth values, numbers, texts in
quotation marks, single characters in apostrophes, `[…]` and `{…}`, and plain
words for everything else. A value that does not fit that language as a whole
is a text.
-/
namespace Relocate.Override

open Text

/-! ## Values -/

def isSpace (c : Char) : Bool :=
  c == ' ' || c == '\t' || c == '\n' || c == '\x0c' || c == '\r'

def skipSpace (t : List Char) : List Char := t.dropWhile isSpace

def isSeparator (c : Char) : Bool := [',', '\x7b', '\x7d', '[', ']'].contains c

def isKeyChar (c : Char) : Bool := c.isAlphanum || c == '_' || c == '-'

def isDigits (t : List Char) : Bool := t.all Char.isDigit

/-- A text without its sign. -/
def unsigned : List Char → List Char
  | '+' :: t | '-' :: t => t
  | t => t

/-- A number before its exponent letter, and what follows the letter if there
is one. -/
def splitExponent (t : List Char) : List Char × Option (List Char) :=
  match t.dropWhile fun c => c != 'e' && c != 'E' with
  | [] => (t, none)
  | _ :: exponent => (t.takeWhile fun c => c != 'e' && c != 'E', some exponent)

/-- Whether a text with a point in it is a decimal number: digits on at least
one side of the point, then perhaps an exponent. -/
def isReal (t : List Char) : Bool :=
  let (mantissa, exponent) := splitExponent (unsigned t)
  let whole := mantissa.takeWhile (· != '.')
  let fraction := (mantissa.dropWhile (· != '.')).tail
  mantissa.contains '.' && isDigits whole && isDigits fraction &&
    !(whole.isEmpty && fraction.isEmpty) &&
    match exponent with
    | none => true
    | some e => !(unsigned e).isEmpty && isDigits (unsigned e)

/-- The whole number that a text spells: up to 64 bits, or 63 and a sign. -/
def wholeNumber? (t : List Char) : Option Int :=
  let magnitude? (digits : List Char) : Option Nat :=
    if digits.isEmpty then none else number? 10 digits
  match t with
  | '-' :: digits =>
    (magnitude? digits).bind fun n => if n ≤ UInt64.size / 2 then some (-n) else none
  | '+' :: digits => (magnitude? digits).bind fun n => if n < UInt64.size then some n else none
  | digits => (magnitude? digits).bind fun n => if n < UInt64.size then some n else none

/-- A plain word: a number if it spells one, otherwise a text. -/
def word (t : List Char) : Value :=
  if t.contains '.' && isReal t then .real (String.ofList t)
  else match wholeNumber? t with
    | some n => .int n
    | none => .str (String.ofList t)

/-- A character that may stand for itself between quotation marks. -/
def isPlain (c : Char) : Bool := c == '\t' || (0x20 ≤ c.toNat && c.toNat != 0x7F)

def letterEscape? : Char → Option Char
  | '"' => some '"'
  | '\\' => some '\\'
  | 'b' => some '\x08'
  | 'f' => some '\x0c'
  | 'n' => some '\n'
  | 'r' => some '\r'
  | 't' => some '\t'
  | _ => none

def codeEscape? (digits : List Char) : Option Char := (number? 16 digits).bind char?

/-- Why a text is not read as a value of the language. -/
inductive Misread where
  /-- It is no such value. -/
  | form
  /-- Reading breaks down. -/
  | breakdown (cause : Breakdown)

/-- What reading gives: something, and the text after it. -/
abbrev Reading (α : Type) := Except Misread (α × List Char)

/-- Splits the text after an opening quotation mark at the closing one. A
backslash takes the next character with it. -/
def splitQuoted? : List Char → Option (List Char × List Char)
  | [] => none
  | '"' :: t => some ([], t)
  | '\\' :: c :: t => (splitQuoted? t).map fun r => ('\\' :: c :: r.1, r.2)
  | c :: t => (splitQuoted? t).map fun r => (c :: r.1, r.2)

/-- The text that a text with escapes stands for. -/
def unescape? : List Char → Option (List Char)
  | [] => some []
  | '\\' :: 'u' :: a :: b :: c :: d :: t => do
    let e ← codeEscape? [a, b, c, d]
    (unescape? t).map (e :: ·)
  | '\\' :: 'U' :: a :: b :: c :: d :: e :: f :: g :: h :: t => do
    let e ← codeEscape? [a, b, c, d, e, f, g, h]
    (unescape? t).map (e :: ·)
  | '\\' :: c :: t => do
    let e ← letterEscape? c
    (unescape? t).map (e :: ·)
  | c :: t => if isPlain c then (unescape? t).map (c :: ·) else none

/-- The text between quotation marks. What stands before the first escape
keeps as many bytes as it has characters, so characters beyond ASCII push
others out; a cut inside a character breaks reading down. -/
def unquote (t : List Char) : Except Misread (List Char) :=
  let front := t.takeWhile (· != '\\')
  if !front.all isPlain then .error .form
  else if front.length = t.length then .ok t
  else match Cursor.seek? front front.length with
    | none => .error (.breakdown (.cutCharacter (String.ofList t) front.length))
    | some kept =>
      match unescape? (t.drop front.length) with
      | some rest => .ok (kept.behind.reverse ++ rest)
      | none => .error .form

/-- The rest of a text in quotation marks. -/
def readQuoted (t : List Char) : Reading String :=
  match splitQuoted? t with
  | some (inner, t) => (unquote inner).map fun r => (String.ofList r, t)
  | none => .error .form

def readKey : List Char → Reading String
  | '"' :: t => readQuoted t
  | t =>
    let key := t.takeWhile isKeyChar
    if key.isEmpty then .error .form else .ok (String.ofList key, t.dropWhile isKeyChar)

mutual

/-- A value and the space around it. -/
def readValue : Nat → List Char → Reading Value
  | 0, _ => .error .form
  | fuel + 1, t =>
    let r : Reading Value := match skipSpace t with
      | 't' :: 'r' :: 'u' :: 'e' :: t => .ok (.bool true, t)
      | 'f' :: 'a' :: 'l' :: 's' :: 'e' :: t => .ok (.bool false, t)
      | '\x7b' :: t => (readFields fuel t).map fun r => (.table (Value.distinct r.1), r.2)
      | '[' :: t => (readItems fuel t).map fun r => (.array r.1, r.2)
      | '"' :: t => (readQuoted t).map fun r => (.str r.1, r.2)
      | '\'' :: c :: '\'' :: t => .ok (.str (String.singleton c), t)
      | '\'' :: _ => .error .form
      | t =>
        .ok (word (trim (t.takeWhile fun c => !isSeparator c)),
          t.dropWhile fun c => !isSeparator c)
    r.map fun r => (r.1, skipSpace r.2)

/-- The rest of an array. A closing bracket is looked for before each item, so
a comma may come last. -/
def readItems : Nat → List Char → Reading (List Value)
  | 0, _ => .error .form
  | fuel + 1, t =>
    match t with
    | ']' :: t => .ok ([], t)
    | t =>
      (readValue fuel t).bind fun (v, t) =>
        match t with
        | ',' :: t => (readItems fuel t).map fun r => (v :: r.1, r.2)
        | ']' :: t => .ok ([v], t)
        | _ => .error .form

/-- The rest of a table. -/
def readFields : Nat → List Char → Reading (List (String × Value))
  | 0, _ => .error .form
  | fuel + 1, t =>
    match t with
    | '\x7d' :: t => .ok ([], t)
    | t =>
      (readKey (skipSpace t)).bind fun (key, t) =>
        match skipSpace t with
        | '=' :: t =>
          (readValue fuel t).bind fun (v, t) =>
            match t with
            | ',' :: t => (readFields fuel t).map fun r => ((key, v) :: r.1, r.2)
            | '\x7d' :: t => .ok ([(key, v)], t)
            | _ => .error .form
        | _ => .error .form

end

/-- The value of a variable. -/
def value (s : String) : Except Fault Value :=
  match readValue (2 * s.toList.length + 2) s.toList with
  | .ok (v, []) => .ok v
  | .ok _ | .error .form => .ok (.str s)
  | .error (.breakdown cause) => .error (.breakdown cause)

/-! ## Names -/

/-- What a name must start with, in lower case. -/
def marker : List Char := "rehome__".toList

/-- The text with each two underscores replaced by a point, from the left. -/
def dotted : List Char → List Char
  | '_' :: '_' :: t => '.' :: dotted t
  | c :: t => c :: dotted t
  | [] => []

/-- The names of the section and the setting that a variable overrides; none
of them may be empty. -/
def key? (name : String) : Option (List String) :=
  let lower := (trim name.toList).map Char.toLower
  if marker.isPrefixOf lower then
    let names := (trim (dotted (lower.drop marker.length))).splitOn '.'
    if names.any List.isEmpty then none else some (names.map String.ofList)
  else none

/-- A value below a list of names. -/
def nested (names : List String) (v : Value) : Value :=
  names.foldr (fun name v => .table [(name, v)]) v

/-- The settings so far with those of one variable. -/
def add (settings : Value) (entry : String × String) : Except Fault Value :=
  match key? entry.1 with
  | some names => (value entry.2).map fun v => settings.merge (nested names v)
  | none => .ok settings

/-- All settings of an environment, in the order of the variables' names. -/
def settings (environment : List (String × String)) : Except Fault Value :=
  (environment.mergeSort fun a b => a.1 ≤ b.1).foldlM add (.table [])

end Relocate.Override
