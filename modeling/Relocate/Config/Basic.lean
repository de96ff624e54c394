import Relocate.Config.Preset
import Relocate.Layout

/-!
# Configurations

What a run needs to know, with a default for every setting, and what makes a
configuration unfit (`Config.flaw?`: the first fault in a fixed order).
-/
namespace Relocate

/-- Which files to visit. -/
structure ScanConfig where
  /-- Folders or files to visit, seen from the project root. -/
  roots : List Path := [⟨"src"⟩]
  extensions : List String := ["ts", "tsx", "js", "jsx"]
  /-- Names of folders that are never entered. -/
  exclude : List String := ["node_modules", "dist", "build", ".git"]
  /-- How many files may be in work at once. -/
  concurrency : Nat := 8
  deriving DecidableEq, Repr, Inhabited

namespace ScanConfig

def acceptsFile (s : ScanConfig) (file : Path) : Bool :=
  match file.extension? with
  | some e => s.extensions.contains e
  | none => false

def excludes (s : ScanConfig) (folder : String) : Bool := s.exclude.contains folder

end ScanConfig

/-- Where the records of the registry come from. -/
structure RegistryConfig where
  /-- Whether the built-in table counts too. -/
  usePreset : Bool := false
  folders : FolderTable := .empty
  deriving DecidableEq, Repr, Inhabited

/-- The records, those of the built-in table first. -/
def RegistryConfig.records (r : RegistryConfig) : List Record :=
  (if r.usePreset then Preset.table.records else []) ++ r.folders.records

inductive LogFormat where
  | pretty
  | json
  deriving DecidableEq, Repr, Inhabited

structure LogConfig where
  level : String := "warn"
  format : LogFormat := .pretty
  deriving DecidableEq, Repr, Inhabited

structure Config where
  layout : Layout := {}
  scan : ScanConfig := {}
  policy : Policy := .preserve
  registry : RegistryConfig := {}
  logging : LogConfig := {}
  deriving DecidableEq, Repr, Inhabited

namespace Config

/-- The configuration whose registry is the built-in table, row by row. -/
def preset : Config := { registry := { folders := Preset.table } }

/-- The first thing that is wrong with a configuration. -/
def flaw? (c : Config) : Option ConfigCause :=
  if c.layout.aliasBase = [] then some .emptyAlias
  else if c.layout.componentsDir.text = "" ∨ c.layout.componentsDir.isAbsolute then
    some (.componentsDir c.layout.componentsDir)
  else if c.scan.roots = [] then some .noRoots
  else if c.scan.extensions = [] then some .noExtensions
  else if c.scan.concurrency = 0 then some .noConcurrency
  else if c.logging.level ∉ logLevels then some (.logLevel c.logging.level)
  else none

def validate (c : Config) : Except Fault Config :=
  match c.flaw? with
  | some cause => .error (.config cause)
  | none => .ok c

end Config

end Relocate
