import Relocate.Config.Basic
import Relocate.Value

/-!
# Configurations as values

The names of the settings. Every setting may be left out, and fields with
other names are passed over; a setting of the wrong type makes the whole
value unreadable.
-/
namespace Relocate

open Value (orElse)

namespace Path

def toValue (p : Path) : Value := .str p.text

def ofValue? (v : Value) : Option Path := v.string?.map Path.mk

end Path

/-- A list of texts as a value. -/
def Value.ofStrings (texts : List String) : Value := .array (texts.map .str)

namespace Layout

def fields (l : Layout) : List (String × Value) :=
  [("components_dir", l.componentsDir.toValue), ("alias_prefix", .str l.aliasPrefix)]

def settingNames : List String := ["components_dir", "alias_prefix"]

def ofValue? (v : Value) : Option Layout :=
  match v.record? settingNames with
  | some [componentsDir, aliasPrefix] => do
    let base : Layout := {}
    return {
      componentsDir := ← orElse base.componentsDir Path.ofValue? componentsDir
      aliasPrefix := ← orElse base.aliasPrefix Value.string? aliasPrefix }
  | _ => none

end Layout

namespace ScanConfig

def fields (s : ScanConfig) : List (String × Value) :=
  [("roots", .array (s.roots.map Path.toValue)), ("extensions", .ofStrings s.extensions),
    ("exclude", .ofStrings s.exclude), ("concurrency", .int s.concurrency)]

def settingNames : List String := ["roots", "extensions", "exclude", "concurrency"]

def ofValue? (v : Value) : Option ScanConfig :=
  match v.record? settingNames with
  | some [roots, extensions, exclude, concurrency] => do
    let base : ScanConfig := {}
    return {
      roots := ← orElse base.roots (Value.list? Path.ofValue?) roots
      extensions := ← orElse base.extensions Value.strings? extensions
      exclude := ← orElse base.exclude Value.strings? exclude
      concurrency := ← orElse base.concurrency Value.count? concurrency }
  | _ => none

end ScanConfig

namespace Policy

def tag : Policy → String
  | preserve => "preserve"
  | aliasOutside => "alias-outside-components"

def ofValue? (v : Value) : Option Policy :=
  match v.choice? with
  | some "preserve" => some preserve
  | some "alias-outside-components" => some aliasOutside
  | _ => none

def settingNames : List String := ["style"]

/-- The policy inside its section. -/
def ofSection? (v : Value) : Option Policy :=
  match v.record? settingNames with
  | some [style] => orElse preserve ofValue? style
  | _ => none

end Policy

namespace FolderTable

def toValue (t : FolderTable) : Value :=
  .table (t.rows.map fun row => (row.1, .ofStrings row.2))

def ofValue? : Value → Option FolderTable
  | .table fields => do
    let rows ← fields.mapM fun field => field.2.strings?.map fun names => (field.1, names)
    return ofRows rows
  | _ => none

end FolderTable

namespace RegistryConfig

def settingNames : List String := ["use_preset", "folders"]

def ofValue? (v : Value) : Option RegistryConfig :=
  match v.record? settingNames with
  | some [usePreset, folders] => do
    return ⟨← orElse false Value.bool? usePreset, ← orElse .empty FolderTable.ofValue? folders⟩
  | _ => none

end RegistryConfig

namespace LogFormat

def tag : LogFormat → String
  | pretty => "pretty"
  | json => "json"

def ofValue? (v : Value) : Option LogFormat :=
  match v.choice? with
  | some "pretty" => some pretty
  | some "json" => some json
  | _ => none

end LogFormat

namespace LogConfig

def fields (l : LogConfig) : List (String × Value) :=
  [("level", .str l.level), ("format", .str l.format.tag)]

def settingNames : List String := ["level", "format"]

def ofValue? (v : Value) : Option LogConfig :=
  match v.record? settingNames with
  | some [level, format] => do
    let base : LogConfig := {}
    return ⟨← orElse base.level Value.string? level, ← orElse base.format LogFormat.ofValue? format⟩
  | _ => none

end LogConfig

namespace Config

def toValue (c : Config) : Value :=
  .table [
    ("layout", .table c.layout.fields),
    ("scan", .table c.scan.fields),
    ("rewrite", .table [("style", .str c.policy.tag)]),
    ("registry", .table [("use_preset", .bool c.registry.usePreset),
      ("folders", c.registry.folders.toValue)]),
    ("logging", .table c.logging.fields)]

def ofValue? (v : Value) : Option Config :=
  match v.record? ["layout", "scan", "rewrite", "registry", "logging"] with
  | some [layout, scan, rewrite, registry, logging] => do
    return {
      layout := ← orElse {} Layout.ofValue? layout
      scan := ← orElse {} ScanConfig.ofValue? scan
      policy := ← orElse .preserve Policy.ofSection? rewrite
      registry := ← orElse {} RegistryConfig.ofValue? registry
      logging := ← orElse {} LogConfig.ofValue? logging }
  | _ => none

/-- The names of the settings of each section. -/
def settingNames : List (String × List String) :=
  [("layout", Layout.settingNames), ("scan", ScanConfig.settingNames),
   ("rewrite", Policy.settingNames), ("registry", RegistryConfig.settingNames),
   ("logging", LogConfig.settingNames)]

/-- A section without what an array has beyond the section's settings. -/
def trimSection (field : String × Value) : String × Value :=
  match settingNames.lookup field.1 with
  | some names => (field.1, field.2.truncate names.length)
  | none => field

/-- The configuration that layered settings spell. A section that is an array
may be longer than its settings; what is too much is passed over. -/
def ofSettings? : Value → Option Config
  | .table fields => ofValue? (.table (fields.map trimSection))
  | _ => none

end Config

end Relocate
