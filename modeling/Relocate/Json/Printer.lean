import Relocate.Text.Digits
import Relocate.Value

/-!
# Writing JSON

Two forms: `compact` has no blanks, `pretty` puts each item and each field on
a line of its own, two spaces deeper than its parent, and a space after each
colon. In strings only quotes, backslashes and characters below U+0020 are
escaped, by a letter where JSON has one and as `\u00xx` otherwise.
-/
namespace Relocate.Json

open Text

inductive Form where
  | compact
  | pretty
  deriving DecidableEq

/-- What comes before an item at a depth. -/
def Form.lineBreak : Form → Nat → List Char
  | compact, _ => []
  | pretty, depth => '\n' :: List.replicate (2 * depth) ' '

def Form.colon : Form → List Char
  | compact => [':']
  | pretty => [':', ' ']

def escape (c : Char) : List Char :=
  if c = '"' then ['\\', '"']
  else if c = '\\' then ['\\', '\\']
  else if c = '\x08' then ['\\', 'b']
  else if c = '\x0c' then ['\\', 'f']
  else if c = '\n' then ['\\', 'n']
  else if c = '\r' then ['\\', 'r']
  else if c = '\t' then ['\\', 't']
  else if c.toNat < 0x20 then '\\' :: 'u' :: hex 4 c.toNat
  else [c]

def quoted (s : String) : List Char := '"' :: s.toList.flatMap escape ++ ['"']

/-- Items between brackets, with commas. -/
def enclosed (form : Form) (depth : Nat) (opening closing : Char) (items : List (List Char)) :
    List Char :=
  if items.isEmpty then [opening, closing]
  else
    let separator := ',' :: form.lineBreak (depth + 1)
    opening :: form.lineBreak (depth + 1) ++ separator.intercalate items ++
      form.lineBreak depth ++ [closing]

mutual

/-- A value, `depth` levels below the top. -/
def write (form : Form) (depth : Nat) : Value → List Char
  | .null => "null".toList
  | .bool true => "true".toList
  | .bool false => "false".toList
  | .int n => signedDecimal n
  | .real text => text.toList
  | .str s => quoted s
  | .array items => enclosed form depth '[' ']' (writeItems form (depth + 1) items)
  | .table fields => enclosed form depth '\x7b' '\x7d' (writeFields form (depth + 1) fields)

def writeItems (form : Form) (depth : Nat) : List Value → List (List Char)
  | [] => []
  | v :: vs => write form depth v :: writeItems form depth vs

def writeFields (form : Form) (depth : Nat) : List (String × Value) → List (List Char)
  | [] => []
  | (name, v) :: fields =>
    (quoted name ++ form.colon ++ write form depth v) :: writeFields form depth fields

end

def compact (v : Value) : String := String.ofList (write .compact 0 v)

def pretty (v : Value) : String := String.ofList (write .pretty 0 v)

end Relocate.Json
