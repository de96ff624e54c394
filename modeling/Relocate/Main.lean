import Relocate.Command.Run

/-!
# The program

Copies what a command needs from the file system into a `Disk`, runs the
command on it, writes back what changed and prints. Everything that is decided
is decided by `Command.execute`.
-/
namespace Relocate.Program

def systemPath (l : Location) : String := "/" ++ "/".intercalate l

/-- What the file system has at a location; links count as what they lead to. -/
def look (l : Location) : IO (List (Location × Entry)) := do
  let path := (← IO.currentDir) / systemPath l
  if !(← path.pathExists) then return []
  match (← path.metadata).type with
  | .dir => return [(l, .folder)]
  | .file => return [(l, .file (← IO.FS.readBinFile path))]
  | _ => return []

/-- What the file system has on the way to a location. -/
def lookAlong (l : Location) : IO (List (Location × Entry)) := do
  let found ← (List.range l.length).mapM fun n => look (l.take (n + 1))
  return found.flatten

/-- Everything below a folder; links are passed over. -/
partial def lookBelow (l : Location) : IO (List (Location × Entry)) := do
  let path := (← IO.currentDir) / systemPath l
  if !(← path.isDir) then return []
  let mut found := []
  for entry in ← path.readDir do
    let below := l ++ [entry.fileName]
    match (← entry.path.symlinkMetadata).type with
    | .dir => found := found ++ (below, .folder) :: (← lookBelow below)
    | .file => found := found ++ [(below, .file (← IO.FS.readBinFile entry.path))]
    | _ => pure ()
  return found

/-- A disk without any entry twice. -/
def diskOf (workDir : Location) (entries : List (Location × Entry)) : Disk :=
  entries.foldl (fun d e => d.put e.1 e.2) { workDir := workDir }

/-- The environment, less what is not UTF-8. -/
def environment : IO (List (String × String)) := do
  let content ← IO.FS.readBinFile "/proc/self/environ"
  let entries := content.toList.splitOn 0
  return entries.filterMap fun entry =>
    (String.fromUTF8? ⟨entry.toArray⟩).bind Command.splitEquals?

/-- The part of the file system that a command needs. -/
def diskFor (workDir : Location) (settings : List (String × String)) (i : Command.Invocation) :
    IO Disk := do
  let explicit := (i.config.map fun file => [file, i.root.join file]).getD []
  let files := i.root :: Config.fileNames.map i.root.join ++ explicit
  let places := ({ workDir := workDir } : Disk).ancestors.flatMap fun l => files.map (Path.place l)
  let along ← (workDir :: places).mapM lookAlong
  let disk := diskOf workDir along.flatten
  match Command.loadConfig ⟨disk, settings⟩ i with
  | .error _ => return disk
  | .ok config =>
    let roots := config.scan.roots.map fun root => (i.root.join root).place workDir
    let along ← roots.mapM lookAlong
    let below ← roots.mapM lookBelow
    return diskOf workDir (disk.entries ++ along.flatten ++ below.flatten)

/-- Makes the folders that are new and writes the files that are new or
differ. -/
def writeBack (before after : Disk) : IO Unit := do
  for (l, entry) in after.entries do
    match entry with
    | .folder => IO.FS.createDirAll (systemPath l)
    | .file content =>
      if (before.content? l).all (·.data != content.data) then
        IO.FS.writeBinFile (systemPath l) content

end Relocate.Program

open Relocate in
def main (args : List String) : IO UInt32 := do
  let workDir := Path.place [] ⟨(← IO.currentDir).toString⟩
  let settings ← Program.environment
  let disk ← match Command.parse? args with
    | some (.run i) => Program.diskFor workDir settings i
    | _ => pure { workDir := workDir }
  let result := Command.execute ⟨disk, settings⟩ args
  Program.writeBack disk result.disk
  (← IO.getStdout).putStr result.output
  if let some error := result.error.or (result.breakdown.map Breakdown.message) then
    (← IO.getStderr).putStr (error ++ "\n")
  return result.code.toUInt32
