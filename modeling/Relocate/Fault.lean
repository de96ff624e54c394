import Relocate.Path.Basic

/-!
# Faults

Why something did not work, cause by cause, and the one place where causes
are put into words. A fault of a single file is not fatal: the file is
skipped and the run goes on.
-/
namespace Relocate

/-- Why the file system refused. -/
inductive DiskCause where
  | notFound
  | alreadyExists
  | notDirectory
  | isDirectory
  | notUtf8
  | nameTooLong
  /-- A path holds the character that ends paths. -/
  | nulCharacter
  | other (text : String)
  deriving DecidableEq, Repr

def DiskCause.message : DiskCause → String
  | notFound => "No such file or directory (os error 2)"
  | alreadyExists => "File exists (os error 17)"
  | notDirectory => "Not a directory (os error 20)"
  | isDirectory => "Is a directory (os error 21)"
  | notUtf8 => "stream did not contain valid UTF-8"
  | nameTooLong => "File name too long (os error 36)"
  | nulCharacter => "file name contained an unexpected NUL byte"
  | other text => text

/-- The log levels that a configuration may name. -/
def logLevels : List String := ["trace", "debug", "info", "warn", "error"]

/-- What is wrong with a configuration. -/
inductive ConfigCause where
  | moduleName (name : String)
  | folderName (folder name : String)
  | emptyAlias
  | componentsDir (dir : Path)
  | noRoots
  | noExtensions
  | noConcurrency
  | logLevel (level : String)
  | fileNotFound (file : Path)
  /-- The file or the environment does not spell a configuration. -/
  | unreadable
  | other (text : String)
  deriving DecidableEq, Repr

def ConfigCause.message : ConfigCause → String
  | moduleName name => "Invalid module name '" ++ name ++ "': must be a bare, non-empty name"
  | folderName folder name =>
    "Invalid folder '" ++ folder ++ "' for module '" ++ name ++ "': must be a single folder name"
  | emptyAlias => "Alias prefix cannot be empty"
  | componentsDir dir =>
    "Components directory must be a non-empty project-relative path, got '" ++ dir.text ++ "'"
  | noRoots => "At least one scan root must be configured"
  | noExtensions => "At least one file extension must be configured"
  | noConcurrency => "Scan concurrency cannot be 0"
  | logLevel level =>
    "Invalid log level '" ++ level ++ "', must be one of: " ++ ", ".intercalate logLevels
  | fileNotFound file => "Configuration file not found: " ++ file.text
  | unreadable => "Failed to load configuration: "
  | other text => text

/-- What breaks the program off, without a report of its own. -/
inductive Breakdown where
  /-- More files are to be in work at once than can be counted. -/
  | concurrency (n : Nat)
  /-- A text is to be cut at an offset inside a character. -/
  | cutCharacter (text : String) (offset : Nat)
  deriving DecidableEq, Repr

def Breakdown.message : Breakdown → String
  | concurrency n => "cannot work on " ++ toString n ++ " files at once"
  | cutCharacter text offset =>
    "byte " ++ toString offset ++ " of '" ++ text ++ "' lies inside a character"

inductive Fault where
  | config (cause : ConfigCause)
  /-- One name in two folders. -/
  | collision (name first second : String)
  | unreadable (file : Path) (cause : DiskCause)
  | unwritable (file : Path) (cause : DiskCause)
  | disk (cause : DiskCause)
  | breakdown (cause : Breakdown)
  deriving DecidableEq, Repr

namespace Fault

def message : Fault → String
  | config cause => "Configuration error: " ++ cause.message
  | collision name first second =>
    "Module '" ++ name ++ "' is registered under both '" ++ first ++ "' and '" ++ second ++ "'"
  | unreadable file cause => "Failed to read " ++ file.text ++ ": " ++ cause.message
  | unwritable file cause => "Failed to write " ++ file.text ++ ": " ++ cause.message
  | disk cause => "I/O error: " ++ cause.message
  | breakdown cause => cause.message

/-- Whether the whole run must stop. -/
def isFatal : Fault → Bool
  | unreadable _ _ | unwritable _ _ => false
  | config _ | collision _ _ _ | disk _ | breakdown _ => true

/-- The cause behind the fault, where the file system gave one. -/
def diskCause? : Fault → Option DiskCause
  | unreadable _ cause | unwritable _ cause | disk cause => some cause
  | config _ | collision _ _ _ | breakdown _ => none

end Fault

end Relocate
