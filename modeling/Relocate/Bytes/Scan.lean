import Relocate.Bytes.Basic
import Relocate.Clause.Scan

/-!
# Reading clauses byte by byte

The reading of a text by offsets into its bytes. A backslash takes the next
byte with it, which may be the first of several. The two slices of a clause,
its path and the rest of its statement, exist only when their ends fall
between characters; a slice that does not exist, or a step that does not lead
on, leaves no result at all.
-/
namespace Relocate.Bytes

open Text

/-! ## What is passed over -/

/-- The offset behind a literal, from an offset inside it. `ends` says which characters end
the literal, and how many bytes on from there. -/
def skipTo (ends : Char → Option Nat) (bs : List UInt8) (i : Nat) : Nat :=
  match _ : at? bs i with
  | none => bs.length
  | some c =>
    if c = '\\' then skipTo ends bs (i + 2)
    else match ends c with
      | some n => i + n
      | none => skipTo ends bs (i + 1)
termination_by bs.length - i
decreasing_by all_goals have := lt_length_of_at? ‹_›; omega

def skipLiteral (q : Char) : List UInt8 → Nat → Nat :=
  skipTo fun c => if c = '\n' then some 0 else if c = q then some 1 else none

def skipTemplate : List UInt8 → Nat → Nat :=
  skipTo fun c => if c = backtick then some 1 else none

/-- The offset behind a block comment, from an offset inside it. -/
def skipBlock (bs : List UInt8) (i : Nat) : Nat :=
  match h : at? bs i, at? bs (i + 1) with
  | some c, some d => if c = '*' ∧ d = '/' then i + 2 else skipBlock bs (i + 1)
  | _, _ => bs.length
termination_by bs.length - i
decreasing_by have := lt_length_of_at? h; omega

/-! ## Clauses -/

/-- How a literal ends. -/
inductive Closing where
  | matched
  | missing
  /-- With the offset of the quote of the wrong kind. -/
  | mismatched (stray : Nat)
  | irregular
  | ambiguous
  deriving DecidableEq, Repr

/-- A clause by the offsets of its parts. -/
structure Token where
  keyword : Nat
  quote : Quote
  start : Nat
  stop : Nat
  path : List Char
  closing : Closing
  finish : Nat
  deriving DecidableEq, Repr

/-- How a literal ends and where its clause does, when `rest` stands between the end of the
path and the end of the statement. -/
def close (q : Quote) (stop terminator : Nat) (closes : Bool) (rest : List Char) : Closing × Nat :=
  if closes then (.matched, stop + 1)
  else if !rest.any isQuote then (.missing, terminator)
  else if q.char ∈ rest then (.irregular, stop + byteLength (before q.char rest) + 1)
  else if byteLength (trim rest) = 1 ∧ (trim rest).head? = some q.opposite.char then
    (.mismatched (stop + (byteLength rest - byteLength (trimLeft rest))), terminator)
  else (.ambiguous, terminator)

/-- The clause with its keyword at `keyword`, from the start of its path on. -/
def readPath? (text : String) (keyword : Nat) (quote : Quote) (start : Nat) : Option Token := do
  let bs := bytes text
  let stop := skipWhile isPathChar bs start
  let terminator ← position? isTerminator bs stop
  let rest ← cut? text stop terminator
  let (closing, finish) := close quote stop terminator (at? bs stop == some quote.char) rest
  let path ← cut? text start stop
  return { keyword, quote, start, stop, path, closing, finish }

/-- The clause whose keyword stands from `keyword` to `after`, if there is one. -/
def readClause? (text : String) (keyword after : Nat) : Option (Option Token) :=
  let opening := skipWhile isGap (bytes text) after
  match (at? (bytes text) opening).bind Quote.ofChar? with
  | none => some none
  | some quote => (readPath? text keyword quote (opening + 1)).map some

/-! ## Steps -/

/-- One step: the clause read, if any, the last character that is no blank, and the offset to
go on from. -/
structure Step where
  token : Option Token
  last : Option Char
  next : Nat

def wordStep? (text : String) (last : Option Char) (i : Nat) : Option Step :=
  let bs := bytes text
  let stop := skipWhile isWordChar bs i
  let plain : Step := ⟨none, at? bs (stop - 1), stop⟩
  if (bs.drop i).take (stop - i) = encode Clause.keyword ∧ last ≠ some '.' then
    (readClause? text i stop).map fun
      | some token => ⟨some token, some '"', token.finish⟩
      | none => plain
  else some plain

/-- The step at an offset with the byte `c`. -/
def step? (text : String) (last : Option Char) (i : Nat) (c : Char) : Option Step :=
  let bs := bytes text
  if c = '/' ∧ at? bs (i + 1) = some '/' then (position? (· == '\n') bs i).map (⟨none, last, ·⟩)
  else if c = '/' ∧ at? bs (i + 1) = some '*' then some ⟨none, last, skipBlock bs (i + 2)⟩
  else if isQuote c then some ⟨none, some c, skipLiteral c bs (i + 1)⟩
  else if c = backtick then some ⟨none, some c, skipTemplate bs (i + 1)⟩
  else if isWordStart c then wordStep? text last i
  else some ⟨none, if isAsciiBlank c then last else some c, i + 1⟩

/-- The clauses from an offset on. A step that leads nowhere would be taken for ever: it leaves
no result. -/
def tokensFrom? (text : String) (last : Option Char) (i : Nat) : Option (List Token) :=
  match _ : at? (bytes text) i with
  | none => some []
  | some c =>
    match step? text last i c with
    | none => none
    | some step =>
      if i < step.next then
        (tokensFrom? text step.last step.next).map (step.token.toList ++ ·)
      else none
termination_by (bytes text).length - i
decreasing_by have := lt_length_of_at? ‹_›; omega

/-- The clauses of a text. -/
def tokens? (text : String) : Option (List Token) := tokensFrom? text none 0

end Relocate.Bytes
