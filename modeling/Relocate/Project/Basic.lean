import Relocate.Config.Basic
import Relocate.Disk
import Relocate.Engine

/-!
# Projects and their source files

A project is a folder with a configuration. Its source files are the files
under the scan roots whose extension counts, except those in excluded
folders; a scan root itself is never excluded, and one that is missing has no
files.
-/
namespace Relocate

structure Project where
  root : Path
  scan : ScanConfig
  engine : Engine

namespace Project

def ofConfig (root : Path) (c : Config) : Except Fault Project := do
  let registry ← Registry.ofRecords c.registry.records
  return ⟨root, c.scan, ⟨registry, c.layout, c.policy⟩⟩

/-- The ways from a location down to the files below it, itself included, that
enter no excluded folder. -/
def waysBelow (p : Project) (d : Disk) (l : Location) : List (List String) :=
  d.entries.filterMap fun e =>
    match e.2 with
    | .folder => none
    | .file _ =>
      if l.isPrefixOf e.1 then
        let way := e.1.drop l.length
        if way.dropLast.any p.scan.excludes then none else some way
      else none

/-- A path continued by names. -/
def extend (base : Path) (way : List String) : Path :=
  way.foldl (fun path name => path.join ⟨name⟩) base

/-- The source files under one scan root. -/
def filesUnder (p : Project) (d : Disk) (scanRoot : Path) : List Path :=
  let base := p.root.join scanRoot
  match d.resolve base with
  | .error _ => []
  | .ok l => ((p.waysBelow d l).map (extend base)).filter p.scan.acceptsFile

/-- Paths in their order, each once. -/
def inOrderOnce (files : List Path) : List Path :=
  (files.mergeSort fun a b => (a.order b).isLE).eraseRepsBy Path.same

/-- The source files in the order of their paths, each path once. -/
def discover (p : Project) (d : Disk) : List Path :=
  inOrderOnce (p.scan.roots.flatMap (p.filesUnder d))

/-- A path as seen from the project's root, if it lies below it. -/
def relative (p : Project) (file : Path) : Path := (file.relativeTo? p.root).getD file

end Project

end Relocate
