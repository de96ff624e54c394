import Relocate.Path.Basic

/-!
# Layouts and styles

A layout says where the components live and how the alias spells that place.
A style is the shape of an import path as its author wrote it; a policy says
what rewriting does with the author's style.
-/
namespace Relocate

structure Layout where
  /-- The folder of the components, below the project root. -/
  componentsDir : Path := ⟨"src/components"⟩
  /-- The same folder as the alias spells it, from anywhere. -/
  aliasPrefix : String := "@/components"
  deriving DecidableEq, Repr, Inhabited

namespace Layout

/-- The alias without slashes at its end. -/
def aliasBase (l : Layout) : List Char := Text.trimEnd '/' l.aliasPrefix.toList

/-- The alias up to its first slash, the slash included. -/
def aliasRoot (l : Layout) : List Char := Text.throughFirst '/' l.aliasPrefix.toList

end Layout

inductive Style where
  /-- `./Name` -/
  | sameFolder
  /-- Any other relative path: `../folder/Name`, `./folder/Name`. -/
  | otherFolder
  /-- A path that starts with the alias. -/
  | aliased
  /-- A literal that does not close as it should. -/
  | malformed
  deriving DecidableEq, Repr, Inhabited

namespace Style

def isRelative : Style → Bool
  | sameFolder | otherFolder => true
  | aliased | malformed => false

def label : Style → String
  | sameFolder => "relative-same-folder"
  | otherFolder => "relative-other-folder"
  | aliased => "root-aliased"
  | malformed => "malformed"

end Style

inductive Policy where
  /-- Relative clauses stay relative, aliased ones aliased. -/
  | preserve
  /-- Relative clauses of files outside the components become aliased. -/
  | aliasOutside
  deriving DecidableEq, Repr, Inhabited

end Relocate
