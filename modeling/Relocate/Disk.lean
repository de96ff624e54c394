import Relocate.Fault

/-!
# Disks

Files and folders as a value: a list of entries, each at its location from
the top. A folder need not be listed if something lies in it. A path means a
location only when every step of the way is there and every step but the last
is a folder; `..` goes back from where the way has come to, and the top is its
own parent. Names and paths have a greatest length.
-/
namespace Relocate

/-- The names from the top down to an entry. -/
abbrev Location := List String

/-- One component further, whatever is there. -/
def Component.follow (l : Location) : Component → Location
  | root => []
  | here => l
  | up => l.dropLast
  | name s => l ++ [s]

/-- Where the components of a path lead from a folder. -/
def Path.place (workDir : Location) (p : Path) : Location :=
  p.components.foldl Component.follow workDir

inductive Entry where
  | folder
  | file (content : ByteArray)

def Entry.isFolder : Entry → Bool
  | .folder => true
  | .file _ => false

structure Disk where
  entries : List (Location × Entry) := []
  /-- Where relative paths start. -/
  workDir : Location := []

namespace Disk

def entry? (d : Disk) (l : Location) : Option Entry :=
  match d.entries.lookup l with
  | some e => some e
  | none => if l = [] ∨ d.entries.any fun e => l.isPrefixOf e.1 then some .folder else none

def content? (d : Disk) (l : Location) : Option ByteArray :=
  match d.entry? l with
  | some (.file content) => some content
  | _ => none

/-- Puts an entry at a location, in place of what is there. -/
def put (d : Disk) (l : Location) (e : Entry) : Disk :=
  if (d.entries.lookup l).isSome then
    { d with entries := d.entries.map fun old => if old.1 = l then (l, e) else old }
  else { d with entries := d.entries ++ [(l, e)] }

/-! ## Paths -/

/-- The most bytes that a name may have. -/
def maxNameLength : Nat := 255

/-- The most bytes that a path may have. -/
def maxPathLength : Nat := 4095

/-- What is wrong with the text of a path, whatever is on the disk. -/
def flaw? (p : Path) : Option DiskCause :=
  if p.text = "" then some .notFound
  else if p.text.toList.contains '\x00' then some .nulCharacter
  else if maxPathLength < p.text.utf8ByteSize then some .nameTooLong
  else none

/-- One step of a way: a segment of a path, from a folder. -/
def step (d : Disk) (l : Location) (segment : List Char) : Except DiskCause Location :=
  match d.entry? l with
  | none => .error .notFound
  | some (.file _) => .error .notDirectory
  | some .folder =>
    if segment = [] ∨ segment = ['.'] then .ok l
    else if segment = ['.', '.'] then .ok l.dropLast
    else
      let below := l ++ [String.ofList segment]
      if maxNameLength < (String.ofList segment).utf8ByteSize then .error .nameTooLong
      else if (d.entry? below).isSome then .ok below
      else .error .notFound

/-- Where the way of a path starts. -/
def origin (d : Disk) (p : Path) : Location := if p.isAbsolute then [] else d.workDir

def resolve (d : Disk) (p : Path) : Except DiskCause Location :=
  match flaw? p with
  | some cause => .error cause
  | none => p.segments.foldlM d.step (d.origin p)

def has (d : Disk) (p : Path) : Bool := (d.resolve p).isOk

def isFolder (d : Disk) (p : Path) : Bool :=
  match d.resolve p with
  | .ok l => (d.entry? l).any Entry.isFolder
  | .error _ => false

def fileAt? (d : Disk) (p : Path) : Option ByteArray :=
  match d.resolve p with
  | .ok l => d.content? l
  | .error _ => none

/-- The working directory and the folders above it, nearest first. -/
def ancestors (d : Disk) : List Location :=
  (List.range (d.workDir.length + 1)).reverse.map fun n => d.workDir.take n

/-- The content of a file; a relative path that names no file here may name
one from a folder further up. -/
def searchFile? (d : Disk) (p : Path) : Option ByteArray :=
  d.ancestors.findSome? fun l => { d with workDir := l }.fileAt? p

/-! ## Changes -/

/-- The folder that a path names something in, and the segment it names there;
no segment for a path of slashes only. The way ends in a folder. -/
def target (d : Disk) (p : Path) : Except DiskCause (Location × Option (List Char)) := do
  if let some cause := flaw? p then throw cause
  let named := p.segments.filter (!·.isEmpty)
  let l ← named.dropLast.foldlM d.step (d.origin p)
  return (← d.step l [], named.getLast?)

/-- Makes one folder. -/
def makeFolder (d : Disk) (p : Path) : Except DiskCause Disk := do
  match ← d.target p with
  | (_, none) => .error .alreadyExists
  | (l, some name) =>
    if name ∈ [['.'], ['.', '.']] then .error .alreadyExists
    else match d.step l name with
      | .ok _ => .error .alreadyExists
      | .error .notFound => .ok (d.put (l ++ [String.ofList name]) .folder)
      | .error cause => .error cause

/-- Makes one folder, which may be there already. -/
def ensureFolder (d : Disk) (p : Path) : Except DiskCause Disk :=
  match d.makeFolder p with
  | .ok d => .ok d
  | .error cause => if d.isFolder p then .ok d else .error cause

/-- Makes the folders of paths, each of which lies in the next. Only when a
folder lies in nothing are those around it made first. -/
def ensureFolders (d : Disk) : List Path → Except DiskCause Disk
  | [] => .ok d
  | p :: around =>
    match d.ensureFolder p with
    | .error .notFound => (d.ensureFolders around).bind fun d => d.ensureFolder p
    | r => r

/-- Makes the folders of a path that are missing. -/
def makeFolders (d : Disk) (p : Path) : Except DiskCause Disk := d.ensureFolders p.ancestors

/-- Writes a file, new or in place of an old one. A slash at the end asks for
a folder. -/
def write (d : Disk) (p : Path) (content : ByteArray) : Except DiskCause Disk := do
  match ← d.target p with
  | (_, none) => .error .isDirectory
  | (l, some name) =>
    if name ∈ [['.'], ['.', '.']] ∨ p.text.toList.getLast? = some '/' then .error .isDirectory
    else match d.step l name with
      | .ok l =>
        if (d.entry? l).any Entry.isFolder then .error .isDirectory
        else .ok (d.put l (.file content))
      | .error .notFound => .ok (d.put (l ++ [String.ofList name]) (.file content))
      | .error cause => .error cause

end Disk

end Relocate
