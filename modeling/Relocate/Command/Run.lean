import Relocate.Command.Arguments
import Relocate.Config.Load
import Relocate.Json.Printer
import Relocate.Project.Run
import Relocate.Report.Data
import Relocate.Report.Text

/-!
# Commands

What a command prints, how it ends and what it leaves on the disk. It ends
with 0; with 1 when a check finds files that would change; with 2 when it
fails; with 101 when it breaks down.
-/
namespace Relocate.Command

structure Result where
  code : Nat := 0
  output : String := ""
  /-- What goes wrong, for the error stream. -/
  error : Option String := none
  /-- What breaks the command off. -/
  breakdown : Option Breakdown := none
  disk : Disk

/-- What surrounds a command. -/
structure World where
  disk : Disk
  environment : List (String × String) := []

/-- A fault with the causes behind it. -/
def chain (f : Fault) : String :=
  match f.diskCause? with
  | some cause => f.message ++ ": " ++ cause.message
  | none => f.message

/-- The end of a command that fails. -/
def failure (w : World) (text : String) : Result :=
  { code := 2, error := some ("❌ Error: " ++ text), disk := w.disk }

/-- The end of a command that breaks down. -/
def brokenOff (w : World) (cause : Breakdown) : Result :=
  { code := 101, breakdown := some cause, disk := w.disk }

/-- The end of a command that meets a fault in the course of something. -/
def failureOf (w : World) (course : String) : Fault → Result
  | .breakdown cause => brokenOff w cause
  | f => failure w (course ++ ": " ++ chain f)

/-- A relative file that is not there is looked for below the root. -/
def explicitFile (w : World) (root : Path) (file : Path) : Path :=
  if !file.isAbsolute && !w.disk.has file then root.join file else file

def loadConfig (w : World) (i : Invocation) : Except Fault Config :=
  Config.load w.disk w.environment i.root (i.config.map (explicitFile w i.root))

def render (s : Summary) (o : Project.Options) : Format → String
  | .text => Report.render s o.mode o.dryRun
  | .json => Json.pretty s.toValue ++ "\n"

/-- Runs a project; with `check`, changes that would be made count as failure.
What the search for source files cannot read is reported with them. -/
def runProject (w : World) (i : Invocation) (o : Project.Options) (format : Format)
    (check : Bool) (failures : List FileReport) : Result :=
  match loadConfig w i with
  | .error f => failureOf w "Failed to load configuration" f
  | .ok config =>
    match Project.ofConfig i.root config with
    | .error f => failureOf w "Failed to build module registry" f
    | .ok project =>
      match project.run o w.disk failures with
      | .error cause => brokenOff w cause
      | .ok (disk, summary) =>
        { code := if check && 0 < summary.changedCount then 1 else 0
          output := render summary o format
          disk := disk }

/-- Writes the built-in table to the project's configuration file. -/
def init (w : World) (i : Invocation) (force : Bool) : Result :=
  let file := i.root.join ⟨"rehome.toml"⟩
  if w.disk.has file && !force then
    failure w (file.text ++ " already exists (use --force to overwrite)")
  else match Config.preset.save w.disk file with
    | .ok disk => { output := "✓ Wrote " ++ file.text ++ "\n", disk := disk }
    | .error f => failureOf w ("Failed to write " ++ file.text) f

def showConfig (w : World) (i : Invocation) : Result :=
  match loadConfig w i with
  | .ok config => { output := config.toToml, disk := w.disk }
  | .error f => failureOf w "Failed to load configuration" f

def run (w : World) (i : Invocation) (failures : List FileReport) : Result :=
  match i.action with
  | .fix dryRun check format => runProject w i ⟨.fix, dryRun || check⟩ format check failures
  | .repair dryRun format => runProject w i ⟨.repair, dryRun⟩ format false failures
  | .audit format => runProject w i ⟨.audit, true⟩ format false failures
  | .init force => init w i force
  | .config => showConfig w i

def version : String := "rehome 0.1.0"

/-- The command line: arguments that make no sense end it with 2. -/
def execute (w : World) (args : List String) (failures : List FileReport := []) : Result :=
  match parse? args with
  | none => { code := 2, disk := w.disk }
  | some .version => { output := version ++ "\n", disk := w.disk }
  | some (.run i) => run w i failures

end Relocate.Command
