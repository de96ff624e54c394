import Relocate.Bytes.Scan
import Relocate.Engine

/-!
# Working on a text by offsets

Repair, rewriting and auditing by slices of the text between the offsets of
its clauses. A new text is put together from slices of the old one: a draft
holds what has been put together so far and the offset from which the old text
goes on. Any slice that does not exist leaves no result.
-/
namespace Relocate.Bytes

open Text

/-! ## Lines -/

/-- The offset behind the last line feed. -/
def lineStart (t : List Char) : Nat := byteLength (t.reverse.dropWhile (· != '\n'))

/-- The line and the column at an offset. -/
def lineColumn? (text : String) (offset : Nat) : Option (Nat × Nat) := do
  let before ← cut? text 0 (min offset text.utf8ByteSize)
  let line ← cut? (String.ofList before) (lineStart before) (byteLength before)
  return (before.count '\n' + 1, line.length + 1)

/-- The line of text around an offset, without the blanks around it. -/
def lineAt? (text : String) (offset : Nat) : Option (List Char) := do
  let offset := min offset text.utf8ByteSize
  let before ← cut? text 0 offset
  let after ← cut? text offset text.utf8ByteSize
  let line ← cut? text (lineStart before) (offset + byteLength (after.takeWhile (· != '\n')))
  return trim line

/-! ## Repair -/

/-- A text in the making: what has been written, and the offset from which the old text
goes on. -/
structure Draft where
  output : List Char := []
  resume : Nat := 0

/-- Copies the old text up to `stop`, writes `more`, and goes on from `resume`. -/
def Draft.copy? (text : String) (d : Draft) (stop : Nat) (more : List Char) (resume : Nat) :
    Option Draft :=
  (cut? text d.resume stop).map fun kept => ⟨d.output ++ kept ++ more, resume⟩

/-- The text in the making, with all that is left of the old text. -/
def Draft.finish? (text : String) (d : Draft) : Option (List Char) :=
  (cut? text d.resume text.utf8ByteSize).map (d.output ++ ·)

structure Progress where
  draft : Draft := {}
  repairs : List Repair := []
  ambiguous : List Ambiguity := []

/-- Looks after one clause. -/
def repairStep? (l : Layout) (text : String) (p : Progress) (token : Token) : Option Progress :=
  if l.tracks token.path then do
    let (line, _) ← lineColumn? text token.keyword
    let repair := Repair.mk line (String.ofList token.path) token.quote
    match token.closing with
    | .missing => do
      let draft ← p.draft.copy? text token.stop [token.quote.char] token.stop
      return { p with draft, repairs := p.repairs ++ [repair .inserted] }
    | .mismatched stray => do
      let closed ← p.draft.copy? text token.stop [token.quote.char] token.stop
      let draft ← closed.copy? text stray [] (stray + 1)
      return { p with draft, repairs := p.repairs ++ [repair .replaced] }
    | .ambiguous => do
      let (line, column) ← lineColumn? text token.stop
      let snippet ← lineAt? text token.keyword
      return { p with ambiguous := p.ambiguous ++ [⟨line, column, String.ofList snippet⟩] }
    | .matched | .irregular => return p
  else some p

def repair? (l : Layout) (text : String) : Option Repaired := do
  let p ← (← tokens? text).foldlM (repairStep? l text) {}
  if p.repairs.isEmpty then return ⟨text, false, p.repairs, p.ambiguous⟩
  else return ⟨String.ofList (← p.draft.finish? text), true, p.repairs, p.ambiguous⟩

/-! ## Rewriting and auditing -/

/-- A clause with the token's path, whose literal ends as the token's does. -/
def Token.clause (t : Token) : Clause where
  gap := []
  quote := t.quote
  path := t.path
  ending := match t.closing with
    | .matched => .matched
    | .missing => .missing []
    | .mismatched _ => .mismatched [] []
    | .irregular => .irregular []
    | .ambiguous => .ambiguous []

/-- The edit of a clause, if its path changes, with the span of the old path. -/
def editAt? (e : Engine) (text : String) (folder : Path) (token : Token) :
    Option (Option (Edit × Nat × Nat)) :=
  match e.target? folder token.clause with
  | some (i, path) =>
    if path.toList = token.path then some none
    else (lineColumn? text token.keyword).map fun place => some
      (⟨place.1, i.name, i.style, String.ofList token.path, path⟩, token.start, token.stop)
  | none => some none

/-- Puts the new paths in the place of the old ones. -/
def replace? (text : String) (edits : List (Edit × Nat × Nat)) : Option (List Char) := do
  let draft ← edits.foldlM (fun (d : Draft) edit =>
    d.copy? text edit.2.1 edit.1.after.toList edit.2.2) {}
  draft.finish? text

def rewrite? (e : Engine) (text : String) (folder : Path) : Option Rewritten := do
  let repaired ← repair? e.layout text
  let edits := (← (← tokens? repaired.text).mapM (editAt? e repaired.text folder)).filterMap id
  let rewritten ← if edits.isEmpty then some repaired.text
    else (replace? repaired.text edits).map String.ofList
  return {
    text := rewritten
    changed := repaired.changed || !edits.isEmpty
    repairs := repaired.repairs
    edits := edits.map (·.1)
    ambiguous := repaired.ambiguous }

/-- The finding at a clause, if a relative import reaches into another folder there. -/
def findingAt? (e : Engine) (text : String) (folder : Path) (token : Token) :
    Option (Option Finding) :=
  match Import.ofClause? e.layout folder token.clause with
  | some i =>
    if i.style = .otherFolder then do
      let (line, column) ← lineColumn? text token.start
      let statement ← lineAt? text token.keyword
      return some {
        line, column
        path := String.ofList token.path
        name := i.name
        registered := (e.registry.home? i.name).isSome
        canonical := e.canonical? folder i i.style
        statement := String.ofList statement }
    else some none
  | none => some none

def audit? (e : Engine) (text : String) (folder : Path) : Option (List Finding) := do
  return (← (← tokens? text).mapM (findingAt? e text folder)).filterMap id

end Relocate.Bytes
