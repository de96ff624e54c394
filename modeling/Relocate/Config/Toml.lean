import Relocate.Config.Data
import Relocate.Toml.Printer

/-!
# Configurations as TOML
-/
namespace Relocate.Config

/-- A section for each group of settings; the folders have their own, even if
there are none. -/
def sections (c : Config) : List Toml.Section :=
  [⟨["layout"], c.layout.fields⟩,
   ⟨["scan"], c.scan.fields⟩,
   ⟨["rewrite"], [("style", .str c.policy.tag)]⟩,
   ⟨["registry"], [("use_preset", .bool c.registry.usePreset)]⟩,
   ⟨["registry", "folders"],
    c.registry.folders.rows.map fun row => (row.1, .ofStrings row.2)⟩,
   ⟨["logging"], c.logging.fields⟩]

def toToml (c : Config) : String := Toml.write c.sections

end Relocate.Config
