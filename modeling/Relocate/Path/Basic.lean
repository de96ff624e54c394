import Relocate.Text.Split

/-!
# Paths

A path is kept as it is spelled. What it means is its list of components:
repeated slashes, inner dots and a trailing slash say nothing, a leading dot
is a component of its own, and `..` stays. Order, equality and nesting of
paths go by components.
-/
namespace Relocate

/-- One step of a path. -/
inductive Component where
  /-- The leading slash of an absolute path. -/
  | root
  /-- A leading `.`. -/
  | here
  | up
  | name (text : String)
  deriving DecidableEq, Repr

namespace Component

def text : Component → String
  | root => "/"
  | here => "."
  | up => ".."
  | name s => s

/-- The place of a kind of component in the order of components. -/
def rank : Component → Nat
  | root => 0
  | here => 1
  | up => 2
  | name _ => 3

/-- By kind first; names by their characters. -/
def order (a b : Component) : Ordering := (compare a.rank b.rank).then (compare a.text b.text)

/-- The component that a segment inside a path stands for, if it says anything. -/
def ofSegment? (s : List Char) : Option Component :=
  if s = [] ∨ s = ['.'] then none
  else if s = ['.', '.'] then some up
  else some (name (String.ofList s))

end Component

structure Path where
  text : String
  deriving DecidableEq, Repr, Inhabited

namespace Path

/-- The stretches between slashes. -/
def segments (p : Path) : List (List Char) := p.text.toList.splitOn '/'

def isAbsolute (p : Path) : Bool := p.text.toList.head? == some '/'

def components (p : Path) : List Component :=
  match p.segments with
  | [] => []
  | first :: more =>
    let front := if p.isAbsolute then some Component.root
      else if first = ['.'] then some Component.here
      else Component.ofSegment? first
    front.toList ++ more.filterMap Component.ofSegment?

/-- Order by components. -/
def order (p q : Path) : Ordering := List.compareLex Component.order p.components q.components

/-- The same path, component by component. -/
def same (p q : Path) : Bool := p.components == q.components

/-- Whether `p` is `dir` or lies below it. -/
def isWithin (p dir : Path) : Bool := dir.components.isPrefixOf p.components

/-- `q` seen from `p`: an absolute `q` stands for itself. -/
def join (p q : Path) : Path :=
  if q.isAbsolute then q
  else if p.text.toList = [] ∨ p.text.toList.getLast? = some '/' then ⟨p.text ++ q.text⟩
  else ⟨p.text ++ "/" ++ q.text⟩

/-- A path below the root, from names. -/
def ofNames (names : List String) : Path := ⟨"/".intercalate names⟩

/-- Component texts with a slash between each two. -/
def specifier (p : Path) : String := "/".intercalate (p.components.map Component.text)

/-- The plainest path with the given components. -/
def ofComponents : List Component → Path
  | .root :: cs => ⟨"/" ++ "/".intercalate (cs.map Component.text)⟩
  | cs => ⟨"/".intercalate (cs.map Component.text)⟩

/-- All but the last component, which is neither missing nor the root. -/
def parent? (p : Path) : Option Path :=
  match p.components.reverse with
  | [] | .root :: _ => none
  | _ :: rest => some (ofComponents rest.reverse)

/-- The path itself and those it lies in, longest first. -/
def ancestors (p : Path) : List Path :=
  let cs := p.components
  (List.range cs.length).reverse.map fun n => ofComponents (cs.take (n + 1))

/-- The last component, if it is a name. -/
def fileName? (p : Path) : Option String :=
  match p.components.getLast? with
  | some (.name s) => some s
  | _ => none

/-- What follows the last dot of the file name; a name has no extension when
its only dot comes first. -/
def extension? (p : Path) : Option String := do
  let (stem, extension) ← Text.splitLast? '.' (← p.fileName?).toList
  if stem.isEmpty then none else some (String.ofList extension)

/-- Drops segments until `n` components are gone, then the segments that say
nothing. -/
def dropSegments : Nat → List (List Char) → List (List Char)
  | _, [] => []
  | n, s :: ss =>
    if (Component.ofSegment? s).isNone then dropSegments n ss
    else match n with
      | 0 => s :: ss
      | n + 1 => dropSegments n ss

/-- `p` as seen from `base`, spelled as in `p`, when it lies within. An empty
base leaves the spelling alone. -/
def relativeTo? (p base : Path) : Option Path :=
  if p.isWithin base then
    match base.components with
    | [] => some p
    | front :: more =>
      let segments := match front with
        | .root | .here => dropSegments more.length p.segments.tail
        | _ => dropSegments (more.length + 1) p.segments
      some ⟨String.ofList (['/'].intercalate segments)⟩
  else none

end Path

end Relocate
