import Relocate.Layout
import Relocate.Quote

/-!
# Reports

What happened to the clauses of a file, to a file, and in a whole run.
-/
namespace Relocate

inductive RepairKind where
  /-- The closing quote was missing. -/
  | inserted
  /-- The closing quote was of the other kind. -/
  | replaced
  deriving DecidableEq, Repr

/-- A literal that was closed. -/
structure Repair where
  line : Nat
  path : String
  quote : Quote
  kind : RepairKind
  deriving DecidableEq, Repr

/-- A literal whose end could not be told. -/
structure Ambiguity where
  line : Nat
  column : Nat
  snippet : String
  deriving DecidableEq, Repr

/-- A path that was replaced. -/
structure Edit where
  line : Nat
  name : String
  style : Style
  before : String
  after : String
  deriving DecidableEq, Repr

/-- A relative path into another folder. -/
structure Finding where
  line : Nat
  column : Nat
  path : String
  name : String
  registered : Bool
  canonical : Option String
  statement : String
  deriving DecidableEq, Repr

inductive FileStatus where
  | unchanged
  /-- `written` is false in a dry run. -/
  | changed (written : Bool)
  | skipped (reason : String)
  deriving DecidableEq, Repr

structure FileReport where
  path : Path
  status : FileStatus
  edits : List Edit := []
  repairs : List Repair := []
  ambiguous : List Ambiguity := []
  findings : List Finding := []
  deriving DecidableEq, Repr

namespace FileReport

def isChanged (f : FileReport) : Bool := f.status matches .changed _

def isSkipped (f : FileReport) : Bool := f.status matches .skipped _

end FileReport

structure Summary where
  filesScanned : Nat
  files : List FileReport
  deriving DecidableEq, Repr

namespace Summary

/-- A summary of reports in the order of their paths; reports of one path keep
their order. -/
def ofReports (filesScanned : Nat) (files : List FileReport) : Summary :=
  ⟨filesScanned, files.mergeSort fun f g => (f.path.order g.path).isLE⟩

def changed (s : Summary) : List FileReport := s.files.filter FileReport.isChanged

def skipped (s : Summary) : List FileReport := s.files.filter FileReport.isSkipped

def changedCount (s : Summary) : Nat := s.changed.length

def skippedCount (s : Summary) : Nat := s.skipped.length

def ambiguousCount (s : Summary) : Nat := (s.files.flatMap (·.ambiguous)).length

def findingCount (s : Summary) : Nat := (s.files.flatMap (·.findings)).length

end Summary

/-- What a run does with each file. -/
inductive Mode where
  /-- Close literals, then put paths right. -/
  | fix
  /-- Close literals only. -/
  | repair
  /-- Report relative paths into other folders; change nothing. -/
  | audit
  deriving DecidableEq, Repr

end Relocate
