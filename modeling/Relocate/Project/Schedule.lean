import Relocate.Project.Run

/-!
# Runs with many files in work at once

A run starts one task for each source file. A task waits until few enough
files are in work, reads its file, works on the text and writes the file if
it is to change; its report is collected at some time after that. Tasks take
their turns in any order.
-/
namespace Relocate.Project

/-- How far work on a file has come. -/
inductive Stage where
  /-- It waits until few enough files are in work. -/
  | waiting
  /-- It is in work and not read yet. -/
  | admitted
  /-- It has been read. -/
  | loaded (read : Except DiskCause String)
  /-- It is through, and its report is to be collected. -/
  | through (report : FileReport)

/-- Whether a file counts as in work. -/
def Stage.isBusy : Stage → Bool
  | admitted | loaded _ => true
  | waiting | through _ => false

structure Task where
  file : Path
  stage : Stage

/-- A run under way. -/
structure Pool where
  disk : Disk
  tasks : List Task
  filesScanned : Nat
  /-- The reports so far, as they came in. -/
  reports : List FileReport

namespace Pool

/-- The number of files in work. -/
def busy (tasks : List Task) : Nat := tasks.countP fun t => t.stage.isBusy

/-- What a run that is over has come to. -/
def outcome (s : Pool) : Disk × Summary := (s.disk, .ofReports s.filesScanned s.reports)

end Pool

/-- One task takes its turn; the others stay as they are. -/
inductive Turn (p : Project) (o : Options) : Pool → Pool → Prop where
  | enter {d n rs f} {before after : List Task}
      (h : Pool.busy (before ++ ⟨f, .waiting⟩ :: after) < p.scan.concurrency) :
      Turn p o ⟨d, before ++ ⟨f, .waiting⟩ :: after, n, rs⟩
        ⟨d, before ++ ⟨f, .admitted⟩ :: after, n, rs⟩
  | load {d n rs f} {before after : List Task} :
      Turn p o ⟨d, before ++ ⟨f, .admitted⟩ :: after, n, rs⟩
        ⟨d, before ++ ⟨f, .loaded (readText d f)⟩ :: after, n, rs⟩
  | finish {d n rs f read} {before after : List Task} :
      Turn p o ⟨d, before ++ ⟨f, .loaded read⟩ :: after, n, rs⟩
        ⟨(p.finish o d f read).1, before ++ ⟨f, .through (p.finish o d f read).2⟩ :: after, n, rs⟩
  | collect {d n rs f report} {before after : List Task} :
      Turn p o ⟨d, before ++ ⟨f, .through report⟩ :: after, n, rs⟩
        ⟨d, before ++ after, n, rs ++ [report]⟩

/-- The start of a run whose search for files has met `failures`. -/
def launch (p : Project) (d : Disk) (failures : List FileReport) : Except Breakdown Pool :=
  if maxConcurrency < p.scan.concurrency then .error (.concurrency p.scan.concurrency)
  else
    let files := p.discover d
    .ok ⟨d, files.map fun f => ⟨f, .waiting⟩, files.length, failures⟩

end Relocate.Project
