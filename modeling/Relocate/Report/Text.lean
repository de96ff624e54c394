import Relocate.Report.Basic

/-!
# Reports for the terminal
-/
namespace Relocate

namespace Report

/-- A line number, right-aligned in four columns. -/
def lineNumber (n : Nat) : String :=
  let digits := toString n
  String.ofList (List.replicate (4 - digits.length) ' ') ++ digits

def repairLine (r : Repair) : String :=
  let action := match r.kind with
    | .inserted => "closed"
    | .replaced => "fixed closing quote of"
  "    " ++ lineNumber r.line ++ ": " ++ action ++ " " ++ String.singleton r.quote.char ++ r.path

def editLine (e : Edit) : String :=
  "    " ++ lineNumber e.line ++ ": " ++ e.before ++ " -> " ++ e.after

def place (file : Path) (line column : Nat) : String :=
  file.text ++ ":" ++ toString line ++ ":" ++ toString column

def changedLines (f : FileReport) : List String :=
  let marker := if f.status = .changed true then "✓" else "~"
  (marker ++ " " ++ f.path.text) :: f.repairs.map repairLine ++ f.edits.map editLine

def ambiguityLines (s : Summary) : List String :=
  let lines := s.files.flatMap fun f =>
    f.ambiguous.map fun a => "  " ++ place f.path a.line a.column ++ "  " ++ a.snippet
  if lines.isEmpty then [] else "" :: "Ambiguous quotes (left untouched):" :: lines

def findingLines (f : FileReport) (g : Finding) : List String :=
  (place f.path g.line g.column ++ "  " ++ g.statement) ::
    match g.canonical with
    | some c => if c = g.path then [] else ["    canonical: " ++ c]
    | none =>
      if g.registered then ["    no canonical path from this folder"]
      else ["    unregistered module '" ++ g.name ++ "'"]

def skippedLines (s : Summary) : List String :=
  s.files.filterMap fun f =>
    match f.status with
    | .skipped reason => some ("⚠ skipped " ++ f.path.text ++ ": " ++ reason)
    | _ => none

/-- The report of a run that changes files, or would. -/
def changeLines (s : Summary) (dryRun : Bool) : List String :=
  let verb := if dryRun then "would change" else "changed"
  s.changed.flatMap changedLines ++ ambiguityLines s ++
    ["", toString s.filesScanned ++ " files scanned, " ++ toString s.changedCount ++ " " ++ verb ++
      ", " ++ toString s.skippedCount ++ " skipped, " ++ toString s.ambiguousCount ++ " ambiguous"]

def auditLines (s : Summary) : List String :=
  let files := s.files.filter fun f => !f.findings.isEmpty
  files.flatMap (fun f => f.findings.flatMap (findingLines f)) ++
    ["", toString s.findingCount ++ " cross-folder relative imports in " ++ toString files.length ++
      " files (" ++ toString s.filesScanned ++ " files scanned)"]

/-- The report of a run, each line ended by a line feed. -/
def render (s : Summary) (mode : Mode) (dryRun : Bool) : String :=
  let lines := match mode with
    | .audit => auditLines s
    | .fix | .repair => changeLines s dryRun
  String.join ((lines ++ skippedLines s).map (· ++ "\n"))

end Report

end Relocate
