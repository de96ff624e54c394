import Relocate.Clause.Site
import Relocate.Import
import Relocate.Report.Basic

/-!
# Closing literals

A literal that lacks its closing quote gets one right after the path; a
closing quote of the wrong kind is taken out and the right one put after the
path. Only paths that start with the root of the alias, `./` or `../` are
touched. Where the end of a literal is open, the text stays and the place is
reported.
-/
namespace Relocate

/-- Whether repair looks after a path. -/
def Layout.tracks (l : Layout) (path : List Char) : Bool :=
  l.aliasRoot.isPrefixOf path || Import.isDotted path

/-- The clause with its literal closed right after the path, where that can be
told. -/
def Clause.closed (c : Clause) : List Char :=
  match c.ending with
  | .missing rest => c.head ++ c.quote.char :: rest
  | .mismatched before after => c.head ++ c.quote.char :: before ++ after
  | .matched | .irregular _ | .ambiguous _ => c.text

/-- What repair does to an ending. -/
def RepairKind.ofEnding? : Ending → Option RepairKind
  | .missing _ => some .inserted
  | .mismatched _ _ => some .replaced
  | .matched | .irregular _ | .ambiguous _ => none

structure Repaired where
  text : String
  changed : Bool
  repairs : List Repair
  ambiguous : List Ambiguity
  deriving DecidableEq, Repr

namespace Layout

/-- The text that repair leaves in place of a piece. -/
def repairPiece (l : Layout) : Piece → List Char
  | .plain t => t
  | .clause c => if l.tracks c.path then c.closed else c.text

def repairAt? (l : Layout) (s : Site) : Option Repair :=
  if l.tracks s.clause.path then
    (RepairKind.ofEnding? s.clause.ending).map fun kind =>
      ⟨s.cursor.line, String.ofList s.clause.path, s.clause.quote, kind⟩
  else none

def ambiguityAt? (l : Layout) (s : Site) : Option Ambiguity :=
  match s.clause.ending with
  | .ambiguous _ =>
    if l.tracks s.clause.path then
      some ⟨s.pathStop.line, s.pathStop.column, String.ofList s.cursor.lineText⟩
    else none
  | _ => none

/-- Closes the literals of a text. -/
def repair (l : Layout) (text : String) : Repaired :=
  let found := sites text.toList
  let repairs := found.filterMap l.repairAt?
  { text := String.ofList ((scan text.toList).flatMap l.repairPiece)
    changed := !repairs.isEmpty
    repairs := repairs
    ambiguous := found.filterMap l.ambiguityAt? }

end Layout

end Relocate
