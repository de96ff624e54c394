import Relocate.Project.Basic

/-!
# Searching for source files

The search asks a walker what there is below each scan root. A walker starts at
a path, goes down into the folders that a test lets it enter, and gives what it
comes to, in whatever order, or a fault. Here the test keeps it out of excluded
folders, but not out of the scan root itself; of what it comes to, the files
with an extension that counts are source files, and faults are reported.
-/
namespace Relocate.Project

/-- What a walk comes to. -/
structure Visit where
  path : Path
  /-- How far it lies below the start. -/
  depth : Nat
  isFolder : Bool

/-- The name of what a walk comes to; a path that ends in no name stands for itself. -/
def Visit.name (v : Visit) : String := v.path.fileName?.getD v.path.text

structure WalkFault where
  /-- Where the walk failed, if that is known. -/
  path? : Option Path
  message : String

/-- What there is from a path down, without what a test refuses and what lies below that. -/
abbrev Walker := (Visit → Bool) → Path → List (Except WalkFault Visit)

/-- The test that keeps walks out of excluded folders below their start. -/
def keeps (p : Project) (v : Visit) : Bool :=
  v.depth == 0 || !v.isFolder || !p.scan.excludes v.name

/-- The source file that a walk has come to. -/
def fileOf? (p : Project) : Except WalkFault Visit → Option Path
  | .ok v => if !v.isFolder && p.scan.acceptsFile v.path then some v.path else none
  | .error _ => none

/-- The report on a fault of a walk from a scan root. -/
def failureOf? (p : Project) (scanRoot : Path) : Except WalkFault Visit → Option FileReport
  | .ok _ => none
  | .error fault =>
    some ⟨(fault.path?.map p.relative).getD scanRoot, .skipped fault.message, [], [], [], []⟩

/-- What there is below a scan root; nothing below one that is missing. -/
def visited (p : Project) (walk : Walker) (d : Disk) (scanRoot : Path) :
    List (Except WalkFault Visit) :=
  if d.has (p.root.join scanRoot) then walk p.keeps (p.root.join scanRoot) else []

/-- The source files in the order of their paths, each path once, and what went wrong. -/
def search (p : Project) (walk : Walker) (d : Disk) : List Path × List FileReport :=
  (inOrderOnce (p.scan.roots.flatMap fun r => (p.visited walk d r).filterMap p.fileOf?),
    p.scan.roots.flatMap fun r => (p.visited walk d r).filterMap (p.failureOf? r))

/-! ## A walker -/

/-- The entry that `way` leads to from `base`, as a walk sees it. -/
def visitAt (base : Path) (way : List String) (e : Entry) : Visit :=
  ⟨extend base way, way.length, e.isFolder⟩

/-- The names of what lies in a folder. -/
def namesIn (d : Disk) (l : Location) : List String :=
  (d.entries.filterMap fun x =>
    if l.isPrefixOf x.1 then (x.1.drop l.length).head? else none).eraseDups

/-- No way on the disk is longer. -/
def height (d : Disk) : Nat := (d.entries.map fun x => x.1.length).max?.getD 0

/-- What there is from `way` down, on so many levels. -/
def walkDown (d : Disk) (keeps : Visit → Bool) (base : Path) (l : Location) :
    Nat → List String → List Visit
  | 0, _ => []
  | levels + 1, way =>
    match d.entry? (l ++ way) with
    | none => []
    | some e =>
      if keeps (visitAt base way e) then
        visitAt base way e ::
          if e.isFolder then
            (namesIn d (l ++ way)).flatMap fun n => walkDown d keeps base l levels (way ++ [n])
          else []
      else []

/-- A walker that goes down folder by folder and has no faults. -/
def walkDisk (d : Disk) : Walker := fun keeps base =>
  match d.resolve base with
  | .error _ => []
  | .ok l => (walkDown d keeps base l (height d + 1) []).map .ok

end Relocate.Project
