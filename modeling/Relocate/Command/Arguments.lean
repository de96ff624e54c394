import Relocate.Path.Basic

/-!
# The command line's arguments

`fix`, `repair`, `audit`, `init` and `config`, each with its own options;
`--root` and `--config` may stand before or after the command's name, and the
later place counts. An option's value follows it, or an equals sign. An option
may be given once in each place.
-/
namespace Relocate.Command

inductive Format where
  | text
  | json
  deriving DecidableEq, Repr

inductive Action where
  | fix (dryRun check : Bool) (format : Format)
  | repair (dryRun : Bool) (format : Format)
  | audit (format : Format)
  | init (force : Bool)
  | config
  deriving DecidableEq, Repr

structure Invocation where
  root : Path := ⟨"."⟩
  config : Option Path := none
  action : Action
  deriving DecidableEq, Repr

inductive Request where
  | version
  | run (invocation : Invocation)
  deriving DecidableEq, Repr

/-- The options that a place accepts: those that stand alone, and those that
take a value. -/
structure OptionNames where
  flags : List String := []
  valued : List String := []

/-- The options given in one place. -/
structure Given where
  flags : List String := []
  values : List (String × String) := []

namespace Given

def value? (g : Given) (name : String) : Option String := g.values.lookup name

def addFlag? (g : Given) (name : String) : Option Given :=
  if g.flags.contains name then none else some { g with flags := name :: g.flags }

/-- Adds a value, which is never empty. -/
def addValue? (g : Given) (name value : String) : Option Given :=
  if (g.value? name).isSome ∨ value = "" then none
  else some { g with values := (name, value) :: g.values }

end Given

/-- Whether an argument can be the value of the option before it: it does not
look like an option. -/
def isValue (s : String) : Bool := s = "-" || s.toList.head? != some '-'

/-- An argument cut at its first equals sign. -/
def splitEquals? (s : String) : Option (String × String) :=
  match s.toList.dropWhile (· != '=') with
  | [] => none
  | _ :: value => some (String.ofList (s.toList.takeWhile (· != '=')), String.ofList value)

/-- An option that is one argument by itself, if it is one of `names`. The
outer option tells the two failures apart: `none` is a mistake, `some none`
is something else than an option. -/
def single? (names : OptionNames) (g : Given) (a : String) : Option (Option Given) :=
  if names.flags.contains a then (g.addFlag? a).map some
  else match splitEquals? a with
    | some (name, value) =>
      if names.valued.contains name then (g.addValue? name value).map some else some none
    | none => some none

/-- Reads options up to the first argument that is none. -/
def readOptions? (names : OptionNames) (g : Given) : List String → Option (Given × List String)
  | [] => some (g, [])
  | [a] =>
    if names.valued.contains a then none
    else match single? names g a with
      | some (some g) => some (g, [])
      | some none => some (g, [a])
      | none => none
  | a :: b :: rest =>
    if names.valued.contains a then
      if isValue b then (g.addValue? a b).bind fun g => readOptions? names g rest else none
    else match single? names g a with
      | some (some g) => readOptions? names g (b :: rest)
      | some none => some (g, a :: b :: rest)
      | none => none

/-- The options of every place. -/
def sharedNames : List String := ["--root", "--config"]

def format? : Option String → Option Format
  | none | some "pretty" => some .text
  | some "json" => some .json
  | some _ => none

/-- The options of a command. -/
def namesOf? : String → Option OptionNames
  | "fix" => some ⟨["--dry-run", "--check"], "--format" :: sharedNames⟩
  | "repair" => some ⟨["--dry-run"], "--format" :: sharedNames⟩
  | "audit" => some ⟨[], "--format" :: sharedNames⟩
  | "init" => some ⟨["--force"], sharedNames⟩
  | "config" => some ⟨[], sharedNames⟩
  | _ => none

def action? (command : String) (g : Given) : Option Action :=
  let has := g.flags.contains
  let format := format? (g.value? "--format")
  match command with
  | "fix" => format.map (.fix (has "--dry-run") (has "--check"))
  | "repair" => format.map (.repair (has "--dry-run"))
  | "audit" => format.map .audit
  | "init" => some (.init (has "--force"))
  | "config" => some .config
  | _ => none

/-- What the arguments ask for; none if they make no sense. Two dashes may
come last. -/
def parse? (args : List String) : Option Request := do
  let (outer, rest) ← readOptions? ⟨[], sharedNames⟩ {} args
  match rest with
  | [] => none
  | command :: rest =>
    if command = "--version" ∨ ['-', 'V'].isPrefixOf command.toList then some .version
    else
      let (inner, rest) ← readOptions? (← namesOf? command) {} rest
      if rest ∈ [[], ["--"]] then
        let value? (name : String) := (inner.value? name).or (outer.value? name)
        return .run {
          root := ⟨(value? "--root").getD "."⟩
          config := (value? "--config").map Path.mk
          action := ← action? command inner }
      else none

end Relocate.Command
