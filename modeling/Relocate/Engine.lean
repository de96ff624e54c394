import Relocate.Canonical
import Relocate.Registry
import Relocate.Repair

/-!
# Rewriting and auditing

The engine knows the registry, the layout and the policy. `rewrite` first
closes literals and then gives every import of a registered module its
canonical path; `audit` lists the relative imports that reach into another
folder. Neither touches a clause that is no import, a module that nobody
registered, or a module without a path from the folder at hand.
-/
namespace Relocate

structure Engine where
  registry : Registry
  layout : Layout := {}
  policy : Policy := .preserve
  deriving Repr

structure Rewritten where
  text : String
  changed : Bool
  repairs : List Repair
  edits : List Edit
  ambiguous : List Ambiguity
  deriving DecidableEq, Repr

namespace Engine

/-- Whether `folder` lies within the components. -/
def isInside (e : Engine) (folder : Path) : Bool :=
  match folder.names? with
  | some names => e.layout.componentsDir.encloses names
  | none => false

/-- The style that an import of a file of `folder` is to have. -/
def targetStyle (e : Engine) (folder : Path) (written : Style) : Style :=
  match e.policy with
  | .preserve => written
  | .aliasOutside => if written.isRelative && !e.isInside folder then .aliased else written

/-- The canonical path of an import in a style, its extension included, if the
module is registered and can be reached. -/
def canonical? (e : Engine) (folder : Path) (i : Import) (style : Style) : Option String := do
  let home ← e.registry.home? i.name
  let resolved ← e.layout.canonical? home i.name folder style
  return i.withExtension resolved

/-- The import that a clause is, with the path it is to have. -/
def target? (e : Engine) (folder : Path) (c : Clause) : Option (Import × String) := do
  let i ← Import.ofClause? e.layout folder c
  if i.style = .malformed then none
  else return (i, ← e.canonical? folder i (e.targetStyle folder i.style))

/-- A piece with its path put right. -/
def rewritePiece (e : Engine) (folder : Path) : Piece → Piece
  | .plain t => .plain t
  | .clause c =>
    match e.target? folder c with
    | some (_, path) => .clause { c with path := path.toList }
    | none => .clause c

/-- The edit at a site, if its path changes. -/
def editAt? (e : Engine) (folder : Path) (s : Site) : Option Edit :=
  match e.target? folder s.clause with
  | some (i, path) =>
    if path.toList = s.clause.path then none
    else some ⟨s.cursor.line, i.name, i.style, String.ofList s.clause.path, path⟩
  | none => none

/-- Repairs the text of a file of `folder` and puts its paths right. -/
def rewrite (e : Engine) (text : String) (folder : Path) : Rewritten :=
  let repaired := e.layout.repair text
  let edits := (sites repaired.text.toList).filterMap (e.editAt? folder)
  { text := String.ofList
      (Piece.render ((scan repaired.text.toList).map (e.rewritePiece folder)))
    changed := repaired.changed || !edits.isEmpty
    repairs := repaired.repairs
    edits := edits
    ambiguous := repaired.ambiguous }

/-- The finding at a site, if a relative import reaches into another folder
there. -/
def findingAt? (e : Engine) (folder : Path) (s : Site) : Option Finding :=
  match Import.ofClause? e.layout folder s.clause with
  | some i =>
    if i.style = .otherFolder then
      some {
        line := s.pathStart.line
        column := s.pathStart.column
        path := String.ofList s.clause.path
        name := i.name
        registered := (e.registry.home? i.name).isSome
        canonical := e.canonical? folder i i.style
        statement := String.ofList s.cursor.lineText }
    else none
  | none => none

def audit (e : Engine) (text : String) (folder : Path) : List Finding :=
  (sites text.toList).filterMap (e.findingAt? folder)

end Engine

end Relocate
