import Relocate.Clause.Basic
import Relocate.Layout
import Relocate.Path.Normal

/-!
# Imports

An import is a clause that points into the components: its path is the alias
with something below it, or a relative path that leads into the components
folder from the folder of the importing file. The module it names is the last
segment of the path, less a script extension.
-/
namespace Relocate

/-- Extensions that are no part of a module's name. -/
def scriptExtensions : List (List Char) :=
  ["tsx".toList, "ts".toList, "jsx".toList, "js".toList, "mjs".toList, "cjs".toList]

structure Import where
  style : Style
  /-- The bare name of the module. -/
  name : String
  /-- The script extension as written, without its dot. -/
  extension : Option String
  deriving DecidableEq, Repr

namespace Import

/-- Whether a path starts with `./` or `../`. -/
def isDotted (path : List Char) : Bool :=
  ['.', '/'].isPrefixOf path || ['.', '.', '/'].isPrefixOf path

/-- The style that a path has in a file of `folder`, if it points into the
components. A path that starts with the alias is aliased or nothing. -/
def shape? (layout : Layout) (folder : Path) (path : List Char) : Option Style :=
  match Text.dropPrefix? layout.aliasBase path with
  | some ('/' :: _ :: _) => some .aliased
  | some _ => none
  | none =>
    if isDotted path then
      match folder.specifierNames? path with
      | none => none
      | some target =>
        if !layout.componentsDir.encloses target then none
        else match path with
          | '.' :: '/' :: tail => if '/' ∈ tail then some .otherFolder else some .sameFolder
          | _ => some .otherFolder
    else none

/-- A last segment as name and script extension. -/
def splitExtension (segment : List Char) : List Char × Option (List Char) :=
  match Text.splitLast? '.' segment with
  | some (stem, extension) =>
    if stem ≠ [] ∧ scriptExtensions.contains extension then (stem, some extension)
    else (segment, none)
  | none => (segment, none)

/-- The style of a clause whose path has the shape `s`. -/
def styleOf (s : Style) : Ending → Option Style
  | .matched => some s
  | .missing _ | .mismatched _ _ | .ambiguous _ => some .malformed
  | .irregular _ => none

/-- The import that a clause is in a file of `folder`. -/
def ofClause? (layout : Layout) (folder : Path) (c : Clause) : Option Import := do
  let shape ← shape? layout folder c.path
  let style ← styleOf shape c.ending
  let (name, extension) := splitExtension (Text.afterLast '/' c.path)
  if name = [] then none
  else some ⟨style, String.ofList name, extension.map String.ofList⟩

/-- A path of the module with the import's own extension put back. -/
def withExtension (i : Import) (resolved : String) : String :=
  match i.extension with
  | some e => resolved ++ "." ++ e
  | none => resolved

end Import

end Relocate
