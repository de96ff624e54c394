import Relocate.Clause.Scan
import Relocate.Text.Cursor

/-!
# Clauses in their places

A `Site` is a clause together with the place of its keyword, from which every
other offset of the clause follows. `sites` lists the clauses of a text in
order.
-/
namespace Relocate

open Text

structure Site where
  /-- The place of the keyword. -/
  cursor : Cursor
  clause : Clause
  deriving Repr

/-- The places of a clause's parts, in bytes from the start of the text. -/
structure Offsets where
  keyword : Nat
  /-- Where the path starts. -/
  start : Nat
  /-- Where the path stops. -/
  stop : Nat
  /-- Where a quote of the wrong kind stands, if the clause ends in one. -/
  stray : Option Nat
  /-- Where the clause stops. -/
  finish : Nat
  deriving DecidableEq, Repr

namespace Site

def offsets (s : Site) : Offsets :=
  let keyword := s.cursor.offset
  let start := keyword + byteLength s.clause.opening
  let stop := start + byteLength s.clause.path
  { keyword, start, stop
    stray := match s.clause.ending with
      | .mismatched before _ => some (stop + byteLength before)
      | _ => none
    finish := stop + byteLength (s.clause.ending.text s.clause.quote) }

def pathStart (s : Site) : Cursor := s.cursor.move s.clause.opening.length

def pathStop (s : Site) : Cursor := s.cursor.move s.clause.head.length

end Site

/-- The clauses among the pieces that lie ahead of a place. -/
def sitesFrom (cursor : Cursor) : List Piece → List Site
  | [] => []
  | .plain t :: ps => sitesFrom (cursor.move t.length) ps
  | .clause c :: ps => ⟨cursor, c⟩ :: sitesFrom (cursor.move c.text.length) ps

/-- The clauses of a text. -/
def sites (t : List Char) : List Site := sitesFrom (Cursor.start t) (scan t)

end Relocate
