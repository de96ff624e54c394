import Relocate.Path.Basic

/-!
# Normal paths

A path below the project root leads to a list of names: `.` stays, `..` goes
back, and a path that is absolute or climbs above the root leads nowhere. No
file system is asked.

* `Path.names?`: the names a path leads to.
* `Path.joinSpecifier?`: where an import specifier written in a folder leads,
  as a whole; `Path.push` puts it behind the folder segment by segment.
* `difference`: the way from one place to another.
-/
namespace Relocate

/-- One step on from the place whose names are given innermost first. -/
def Component.enter? : Component → List String → Option (List String)
  | .name s, names => some (s :: names)
  | .here, names => some names
  | .up, [] => none
  | .up, _ :: names => some names
  | .root, _ => none

/-- The place that a walk over components ends at, from the project root. -/
def walk? (cs : List Component) : Option (List String) :=
  (cs.foldlM (fun names (c : Component) => c.enter? names) []).map List.reverse

namespace Path

/-- The names that a path leads to from the project root. -/
def names? (p : Path) : Option (List String) := walk? p.components

/-- The path with every `.` and `..` folded. -/
def normalize? (p : Path) : Option Path := p.names?.map ofNames

/-- The names that the specifier `s`, written in `folder`, leads to. Empty
segments say nothing, so a leading slash does not make `s` absolute. -/
def specifierNames? (folder : Path) (s : List Char) : Option (List String) :=
  walk? (folder.components ++ (s.splitOn '/').filterMap Component.ofSegment?)

/-- The path that the specifier `s`, written in `folder`, leads to. -/
def joinSpecifier? (folder : Path) (s : List Char) : Option Path :=
  (specifierNames? folder s).map ofNames

/-- The path with the segments of a specifier put behind it, one after the
other; empty ones are passed over. -/
def push (folder : Path) (s : List Char) : Path :=
  ((s.splitOn '/').filter (· ≠ [])).foldl (fun p segment => p.join ⟨String.ofList segment⟩) folder

/-- Whether the place with these names is `dir` or lies below it. `dir` is
taken as it is spelled: one with a dot in it encloses nothing. -/
def encloses (dir : Path) (names : List String) : Bool :=
  dir.components.isPrefixOf (names.map .name)

end Path

/-- The components that lead from `base` to `target`: up to where the two
part, then down. -/
def difference : (base target : List String) → List Component
  | [], target => target.map .name
  | base@(_ :: _), [] => base.map fun _ => .up
  | b :: base, t :: target =>
    if b = t then difference base target
    else .up :: base.map (fun _ => .up) ++ (t :: target).map .name

end Relocate
