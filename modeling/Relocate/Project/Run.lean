import Relocate.Project.Basic

/-!
# Runs

A run reads each source file once, works on its text alone, and writes it at
most once. A file that cannot be read is reported and left; so is what the
search for source files cannot read.
-/
namespace Relocate

namespace Project

structure Options where
  mode : Mode
  /-- Whether to report changes without writing them. -/
  dryRun : Bool

/-- The report on a text, with the new text if it differs. The status is still
open. -/
def review (p : Project) (mode : Mode) (file : Path) (text : String) : FileReport × Option String :=
  let folder := file.parent?.getD ⟨""⟩
  match mode with
  | .audit => (⟨file, .unchanged, [], [], [], p.engine.audit text folder⟩, none)
  | .repair =>
    let r := p.engine.layout.repair text
    (⟨file, .unchanged, [], r.repairs, r.ambiguous, []⟩, if r.changed then some r.text else none)
  | .fix =>
    let r := p.engine.rewrite text folder
    (⟨file, .unchanged, r.edits, r.repairs, r.ambiguous, []⟩,
      if r.changed then some r.text else none)

/-- The text of a file. -/
def readText (d : Disk) (file : Path) : Except DiskCause String := do
  match d.entry? (← d.resolve file) with
  | some (.file content) =>
    match String.fromUTF8? content with
    | some text => .ok text
    | none => .error .notUtf8
  | some .folder => .error .isDirectory
  | none => .error .notFound

/-- Works on one file that has been read. -/
def finish (p : Project) (o : Options) (d : Disk) (file : Path) (read : Except DiskCause String) :
    Disk × FileReport :=
  let name := p.relative file
  match read with
  | .error cause => (d, ⟨name, .skipped (Fault.unreadable name cause).message, [], [], [], []⟩)
  | .ok text =>
    match p.review o.mode name text with
    | (report, none) => (d, report)
    | (report, some new) =>
      if o.dryRun then (d, { report with status := .changed false })
      else match d.write file new.toUTF8 with
        | .ok d => (d, { report with status := .changed true })
        | .error cause =>
          (d, { report with status := .skipped (Fault.unwritable name cause).message })

/-- Works on one file. -/
def process (p : Project) (o : Options) (d : Disk) (file : Path) : Disk × FileReport :=
  p.finish o d file (readText d file)

/-- Works on a list of files, one after another. -/
def processAll (p : Project) (o : Options) (d : Disk) : List Path → Disk × List FileReport
  | [] => (d, [])
  | file :: files =>
    let (d, report) := p.process o d file
    let (d, reports) := p.processAll o d files
    (d, report :: reports)

/-- Works on the source files one after another, in the order of their paths.
The reports on what the search for them failed to read come with theirs. -/
def work (p : Project) (o : Options) (d : Disk) (failures : List FileReport) : Disk × Summary :=
  let files := p.discover d
  let (d, reports) := p.processAll o d files
  (d, .ofReports files.length (failures ++ reports))

/-- The most files that can be in work at once. -/
def maxConcurrency : Nat := UInt64.size / 8 - 1

/-- Works on every source file, unless more files are to be in work at once
than can be counted; then nothing is touched. -/
def run (p : Project) (o : Options) (d : Disk) (failures : List FileReport := []) :
    Except Breakdown (Disk × Summary) :=
  if maxConcurrency < p.scan.concurrency then .error (.concurrency p.scan.concurrency)
  else .ok (p.work o d failures)

end Project

end Relocate
