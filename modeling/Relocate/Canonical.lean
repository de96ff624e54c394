import Relocate.Layout
import Relocate.Path.Normal

/-!
# Canonical paths

The one text that names a module from a given folder in a given style. The
aliased text does not depend on the folder; the relative text is the way from
the folder to the module, with `./` in front when it does not go up first.
-/
namespace Relocate

namespace Layout

/-- Where the module `name` of `home` lives. -/
def homePath (l : Layout) (home name : String) : Path :=
  (l.componentsDir.join ⟨home⟩).join ⟨name⟩

def aliasedText (l : Layout) (home name : String) : String :=
  String.ofList l.aliasBase ++ "/" ++ home ++ "/" ++ name

/-- The relative text, unless `folder` or the module lies outside the project. -/
def relativeText? (l : Layout) (home name : String) (folder : Path) : Option String := do
  let base ← folder.names?
  let target ← (l.homePath home name).names?
  let way := "/".intercalate ((difference base target).map Component.text)
  if ['.', '.'].isPrefixOf way.toList then some way else some ("./" ++ way)

/-- The text that names the module `name` of `home` in a file of `folder`. -/
def canonical? (l : Layout) (home name : String) (folder : Path) : Style → Option String
  | .aliased => some (l.aliasedText home name)
  | .sameFolder | .otherFolder => l.relativeText? home name folder
  | .malformed => none

end Layout

end Relocate
