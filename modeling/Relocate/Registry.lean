import Relocate.Fault

/-!
# The registry of modules

Each module name has one home: a folder directly below the components. Names
and homes are single, non-empty path segments. Naming a module twice with the
same home is harmless; with two homes it is a collision.
-/
namespace Relocate

/-- A module and its home. -/
structure Record where
  name : String
  home : String
  deriving DecidableEq, Repr

/-- Whether a text can be a single segment of a path. -/
def isSegment (s : String) : Bool := s ≠ "" && !s.toList.contains '/'

/-- Names with their homes, in the order of their first mention. -/
structure Registry where
  rows : List (String × String) := []
  deriving DecidableEq, Repr, Inhabited

namespace Registry

def home? (r : Registry) (name : String) : Option String := r.rows.lookup name

def size (r : Registry) : Nat := r.rows.length

def add (r : Registry) (record : Record) : Except Fault Registry :=
  if !isSegment record.name then .error (.config (.moduleName record.name))
  else if !isSegment record.home then .error (.config (.folderName record.home record.name))
  else match r.home? record.name with
    | some home =>
      if home = record.home then .ok r else .error (.collision record.name home record.home)
    | none => .ok ⟨r.rows ++ [(record.name, record.home)]⟩

/-- The registry of a list of records; the first record that does not fit is
the fault. -/
def ofRecords (records : List Record) : Except Fault Registry := records.foldlM add {}

end Registry

end Relocate
