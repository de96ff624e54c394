import Relocate.Config.Data
import Relocate.Config.Override
import Relocate.Config.Toml
import Relocate.Disk
import Relocate.Toml.Reader

/-!
# Loading and saving configurations

Three layers, each overriding the one before: the defaults, a TOML file, the
environment. Only the layered result is checked.
-/
namespace Relocate.Config

/-- Where a project keeps its configuration; the first that is there counts. -/
def fileNames : List Path := [⟨"rehome.toml"⟩, ⟨".rehome/config.toml"⟩]

/-- The configuration file to read: the one asked for, which must be there, or
one of the project's own. -/
def file? (d : Disk) (root : Path) : Option Path → Except Fault (Option Path)
  | some file => if d.has file then .ok (some file) else .error (.config (.fileNotFound file))
  | none => .ok ((fileNames.map root.join).find? d.has)

/-- The settings of a file; something that is no file has none. -/
def fileSettings? (d : Disk) : Option Path → Option Value
  | none => some (.table [])
  | some file =>
    match d.searchFile? file with
    | none => some (.table [])
    | some content => (String.fromUTF8? content).bind Toml.read?

/-- The configuration that layers of settings over the defaults spell. -/
def ofLayers (layers : List Value) : Except Fault Config :=
  match ofSettings? (layers.foldl Value.merge (toValue {})) with
  | some c => c.validate
  | none => .error (.config .unreadable)

def load (d : Disk) (environment : List (String × String)) (root : Path)
    (explicit : Option Path) : Except Fault Config := do
  let file ← file? d root explicit
  let overrides ← Override.settings environment
  match fileSettings? d file with
  | some settings => ofLayers [settings, overrides]
  | none => .error (.config .unreadable)

/-- Writes a configuration to a file, with the folders on the way. -/
def save (c : Config) (d : Disk) (file : Path) : Except Fault Disk := do
  let d ← match file.parent? with
    | some folder => (d.makeFolders folder).mapError Fault.disk
    | none => .ok d
  (d.write file c.toToml.toUTF8).mapError (Fault.unwritable file)

end Relocate.Config
