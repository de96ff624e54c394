import Relocate.Text.Digits
import Relocate.Value

/-!
# Writing TOML

A document is a list of sections, each a header and its settings. A text is
written in the plainest of four forms that needs no escape: `"…"`, `'…'`,
`"""…"""`, `'''…'''`; if each of them needs one, in a form with escapes. The
forms with three quotes start a new line after the opening quotes when the
text holds a line feed. Arrays of two or more items have a line for each.
-/
namespace Relocate.Toml

open Text

/-! ## Texts -/

/-- A character that no form can hold without an escape. -/
def isControl (c : Char) : Bool :=
  (c.toNat < 0x20 && c != '\t' && c != '\n') || c.toNat == 0x7F

/-- Whether `q` occurs three times in a row. -/
def hasTriple (q : Char) : List Char → Bool
  | a :: b :: c :: t => (a == q && b == q && c == q) || hasTriple q (b :: c :: t)
  | _ => false

inductive StringForm where
  | basic
  | literal
  | longBasic
  | longLiteral
  deriving DecidableEq

def formOf (t : List Char) : StringForm :=
  if !t.any isControl ∧ '\n' ∉ t ∧ '\\' ∉ t ∧ '"' ∉ t then .basic
  else if !t.any isControl ∧ '\n' ∉ t ∧ '\'' ∉ t then .literal
  else if !t.any isControl ∧ '\\' ∉ t ∧ !hasTriple '"' t then .longBasic
  else if !t.any isControl ∧ !hasTriple '\'' t then .longLiteral
  else if '\n' ∈ t then .longBasic
  else .basic

/-- A character as it stands in a basic form. -/
def escape (c : Char) : List Char :=
  if c = '"' then ['\\', '"']
  else if c = '\\' then ['\\', '\\']
  else if c = '\x08' then ['\\', 'b']
  else if c = '\t' then ['\\', 't']
  else if c = '\n' then ['\\', 'n']
  else if c = '\x0c' then ['\\', 'f']
  else if c = '\r' then ['\\', 'r']
  else if c.toNat < 0x20 || c.toNat == 0x7F then '\\' :: 'u' :: upperHex 4 c.toNat
  else [c]

/-- The body of a long basic form: line feeds stand as they are, and of three
quotes in a row the third is escaped. `run` counts the quotes just written. -/
def escapeLong (run : Nat) : List Char → List Char
  | [] => []
  | c :: t =>
    if c = '"' then
      if run = 2 then '\\' :: '"' :: escapeLong 0 t else '"' :: escapeLong (run + 1) t
    else if c = '\n' then '\n' :: escapeLong 0 t
    else escape c ++ escapeLong 0 t

/-- A body between three quotes on either side. -/
def long (q : Char) (t body : List Char) : List Char :=
  [q, q, q] ++ (if '\n' ∈ t then ['\n'] else []) ++ body ++ [q, q, q]

def basic (t : List Char) : List Char := '"' :: t.flatMap escape ++ ['"']

def literal (t : List Char) : List Char := '\'' :: t ++ ['\'']

def writeString (s : String) : List Char :=
  let t := s.toList
  match formOf t with
  | .basic => basic t
  | .literal => literal t
  | .longBasic => long '"' t (escapeLong 0 t)
  | .longLiteral => long '\'' t t

/-! ## Keys -/

def isBareKeyChar (c : Char) : Bool := c.isAlphanum || c == '_' || c == '-'

/-- A key without quotes if it can be, otherwise as a text on one line. -/
def writeKey (s : String) : List Char :=
  let t := s.toList
  if t ≠ [] ∧ t.all isBareKeyChar then t
  else if !t.any isControl ∧ '\n' ∉ t ∧ '\\' ∉ t ∧ '"' ∉ t then basic t
  else if !t.any isControl ∧ '\n' ∉ t ∧ '\'' ∉ t then literal t
  else basic t

/-! ## Values and sections -/

/-- Items of an array, already written. -/
def writeArray : List (List Char) → List Char
  | [] => ['[', ']']
  | [item] => '[' :: item ++ [']']
  | items =>
    '[' :: '\n' :: items.flatMap (fun item => [' ', ' ', ' ', ' '] ++ item ++ [',', '\n']) ++ [']']

/-- A single setting's value: a truth value, a whole number or a text. -/
def writeScalar : Value → List Char
  | .bool true => "true".toList
  | .bool false => "false".toList
  | .int n => signedDecimal n
  | .real text => text.toList
  | .str s => writeString s
  | .null | .array _ | .table _ => []

def writeValue : Value → List Char
  | .array items => writeArray (items.map writeScalar)
  | v => writeScalar v

structure Section where
  header : List String
  rows : List (String × Value)

def writeRow (row : String × Value) : List Char :=
  writeKey row.1 ++ [' ', '=', ' '] ++ writeValue row.2 ++ ['\n']

def writeSection (s : Section) : List Char :=
  '[' :: ['.'].intercalate (s.header.map writeKey) ++ [']', '\n'] ++ s.rows.flatMap writeRow

/-- Sections with an empty line between each two. -/
def write (sections : List Section) : String :=
  String.ofList (['\n'].intercalate (sections.map writeSection))

end Relocate.Toml
