import Relocate.Quote

/-!
# Clauses

A clause is the keyword `from`, blanks, an opening quote and a path. What
stands between the path and the end of the statement decides how the literal
ends (`Ending`); an ending carries the text it covers, so a clause can be
written back letter by letter (`Clause.text`).

A text is a list of pieces: clauses, and text between them that no clause
covers.
-/
namespace Relocate

/-- How a path literal ends. `q` below is the opening quote. -/
inductive Ending where
  /-- `q` follows the path. -/
  | matched
  /-- The rest of the statement holds no quote of either kind. -/
  | missing (rest : List Char)
  /-- One quote of the other kind, with blanks around it, is the rest of the
  statement. -/
  | mismatched (before after : List Char)
  /-- Other text follows the path, and `q` comes after it. -/
  | irregular (upTo : List Char)
  /-- Stray quotes or further text: where the literal ends is open. -/
  | ambiguous (rest : List Char)
  deriving DecidableEq, Repr

/-- The text from the end of the path to the end of the clause. -/
def Ending.text (q : Quote) : Ending → List Char
  | matched => [q.char]
  | missing rest => rest
  | mismatched before after => before ++ q.opposite.char :: after
  | irregular upTo => upTo ++ [q.char]
  | ambiguous rest => rest

structure Clause where
  /-- Spaces and tabs between the keyword and the quote. -/
  gap : List Char
  quote : Quote
  path : List Char
  ending : Ending
  deriving DecidableEq, Repr

namespace Clause

def keyword : List Char := ['f', 'r', 'o', 'm']

/-- The clause up to and including the opening quote. -/
def opening (c : Clause) : List Char := keyword ++ c.gap ++ [c.quote.char]

/-- The clause up to the end of the path. -/
def head (c : Clause) : List Char := c.opening ++ c.path

def text (c : Clause) : List Char := c.head ++ c.ending.text c.quote

/-- Whether the literal closes with its own quote, right after the path. -/
def isWellFormed (c : Clause) : Bool := c.ending = .matched

theorem text_ne_nil (c : Clause) : c.text ≠ [] := by
  simp [text, head, opening, keyword]

end Clause

/-- A stretch of text, as scanning sees it. -/
inductive Piece where
  | plain (text : List Char)
  | clause (clause : Clause)
  deriving DecidableEq, Repr

namespace Piece

def text : Piece → List Char
  | plain t => t
  | clause c => c.text

/-- The text that a list of pieces spells. -/
def render (ps : List Piece) : List Char := ps.flatMap text

@[simp] theorem render_nil : render [] = [] := rfl

@[simp] theorem render_cons (p : Piece) (ps : List Piece) :
    render (p :: ps) = p.text ++ render ps := rfl

end Piece

end Relocate
