import Relocate.Report.Basic
import Relocate.Value

/-!
# Reports as values

The names of fields and choices in reports, and reading them back. Lists with
nothing in them and a canonical path that does not exist are left out; the
status of a file stands among the file's own fields.
-/
namespace Relocate

open Value (required orElse)

namespace Quote

def label : Quote → String
  | double => "double"
  | single => "single"

def ofValue? (v : Value) : Option Quote :=
  match v.choice? with
  | some "double" => some double
  | some "single" => some single
  | _ => none

end Quote

namespace Style

/-- The style's name in a report. -/
def tag : Style → String
  | sameFolder => "relativeSameFolder"
  | otherFolder => "relativeOtherFolder"
  | aliased => "rootAliased"
  | malformed => "malformed"

def ofValue? (v : Value) : Option Style :=
  match v.choice? with
  | some "relativeSameFolder" => some sameFolder
  | some "relativeOtherFolder" => some otherFolder
  | some "rootAliased" => some aliased
  | some "malformed" => some malformed
  | _ => none

end Style

namespace RepairKind

def tag : RepairKind → String
  | inserted => "inserted"
  | replaced => "replaced"

def ofValue? (v : Value) : Option RepairKind :=
  match v.choice? with
  | some "inserted" => some inserted
  | some "replaced" => some replaced
  | _ => none

end RepairKind

/-- A count as a value. -/
def Value.ofNat (n : Nat) : Value := .int n

namespace Repair

def toValue (r : Repair) : Value :=
  .table [("line", .ofNat r.line), ("path", .str r.path), ("quote", .str r.quote.label),
    ("kind", .str r.kind.tag)]

def ofValue? (v : Value) : Option Repair :=
  match v.record? ["line", "path", "quote", "kind"] with
  | some [line, path, quote, kind] => do
    return ⟨← required Value.count? line, ← required Value.string? path,
      ← required Quote.ofValue? quote, ← required RepairKind.ofValue? kind⟩
  | _ => none

end Repair

namespace Ambiguity

def toValue (a : Ambiguity) : Value :=
  .table [("line", .ofNat a.line), ("column", .ofNat a.column), ("snippet", .str a.snippet)]

def ofValue? (v : Value) : Option Ambiguity :=
  match v.record? ["line", "column", "snippet"] with
  | some [line, column, snippet] => do
    return ⟨← required Value.count? line, ← required Value.count? column,
      ← required Value.string? snippet⟩
  | _ => none

end Ambiguity

namespace Edit

def toValue (e : Edit) : Value :=
  .table [("line", .ofNat e.line), ("module", .str e.name), ("style", .str e.style.tag),
    ("from", .str e.before), ("to", .str e.after)]

def ofValue? (v : Value) : Option Edit :=
  match v.record? ["line", "module", "style", "from", "to"] with
  | some [line, name, style, before, after] => do
    return ⟨← required Value.count? line, ← required Value.string? name,
      ← required Style.ofValue? style, ← required Value.string? before,
      ← required Value.string? after⟩
  | _ => none

end Edit

namespace Finding

def toValue (f : Finding) : Value :=
  .table ([("line", .ofNat f.line), ("column", .ofNat f.column), ("path", .str f.path),
    ("module", .str f.name), ("registered", .bool f.registered)] ++
    (f.canonical.map fun c => ("canonical", Value.str c)).toList ++
    [("statement", .str f.statement)])

/-- A text that may be absent or null. -/
def optional? : Value → Option (Option String)
  | .null => some none
  | v => v.string?.map some

def ofValue? (v : Value) : Option Finding :=
  match v.record? ["line", "column", "path", "module", "registered", "canonical", "statement"] with
  | some [line, column, path, name, registered, canonical, statement] => do
    return ⟨← required Value.count? line, ← required Value.count? column,
      ← required Value.string? path, ← required Value.string? name,
      ← required Value.bool? registered, ← orElse none optional? canonical,
      ← required Value.string? statement⟩
  | _ => none

end Finding

namespace FileStatus

def fields : FileStatus → List (String × Value)
  | unchanged => [("status", .str "unchanged")]
  | changed written => [("status", .str "changed"), ("written", .bool written)]
  | skipped reason => [("status", .str "skipped"), ("reason", .str reason)]

/-- The status among the fields of a file's report, by name or by number. -/
def ofFields? (v : Value) : Option FileStatus :=
  match v.get? "status" with
  | some (.str "unchanged") | some (.int 0) => some unchanged
  | some (.str "changed") | some (.int 1) => (required Value.bool? (v.get? "written")).map changed
  | some (.str "skipped") | some (.int 2) => (required Value.string? (v.get? "reason")).map skipped
  | _ => none

end FileStatus

namespace FileReport

/-- A field that is left out when the list is empty. -/
def listField {α : Type} (name : String) (toValue : α → Value) : List α → List (String × Value)
  | [] => []
  | items => [(name, .array (items.map toValue))]

def toValue (f : FileReport) : Value :=
  .table (("path", .str f.path.text) :: f.status.fields ++
    listField "edits" Edit.toValue f.edits ++
    listField "repairs" Repair.toValue f.repairs ++
    listField "ambiguous" Ambiguity.toValue f.ambiguous ++
    listField "findings" Finding.toValue f.findings)

def ofValue? : Value → Option FileReport
  | v@(.table _) => do
    return {
      path := ⟨← required Value.string? (v.get? "path")⟩
      status := ← FileStatus.ofFields? v
      edits := ← orElse [] (Value.list? Edit.ofValue?) (v.get? "edits")
      repairs := ← orElse [] (Value.list? Repair.ofValue?) (v.get? "repairs")
      ambiguous := ← orElse [] (Value.list? Ambiguity.ofValue?) (v.get? "ambiguous")
      findings := ← orElse [] (Value.list? Finding.ofValue?) (v.get? "findings") }
  | _ => none

end FileReport

namespace Summary

def toValue (s : Summary) : Value :=
  .table [("filesScanned", .ofNat s.filesScanned),
    ("files", .array (s.files.map FileReport.toValue))]

def ofValue? (v : Value) : Option Summary :=
  match v.record? ["filesScanned", "files"] with
  | some [filesScanned, files] => do
    return ⟨← required Value.count? filesScanned,
      ← required (Value.list? FileReport.ofValue?) files⟩
  | _ => none

end Summary

end Relocate
