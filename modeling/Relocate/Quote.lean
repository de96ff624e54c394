/-!
# Quotes

The two characters that may open a path literal.
-/
namespace Relocate

inductive Quote where
  | double
  | single
  deriving DecidableEq, Repr, Inhabited

namespace Quote

def char : Quote → Char
  | double => '"'
  | single => '\''

/-- The other quote. -/
def opposite : Quote → Quote
  | double => single
  | single => double

def ofChar? (c : Char) : Option Quote :=
  if c = '"' then some double else if c = '\'' then some single else none

@[simp] theorem ofChar?_char (q : Quote) : ofChar? q.char = some q := by cases q <;> rfl

theorem ofChar?_eq_some_iff {c : Char} {q : Quote} : ofChar? c = some q ↔ c = q.char := by
  constructor
  · intro h
    simp only [ofChar?] at h
    split at h
    · cases h; assumption
    · split at h
      · cases h; assumption
      · cases h
  · rintro rfl; exact ofChar?_char q

@[simp] theorem opposite_opposite (q : Quote) : q.opposite.opposite = q := by cases q <;> rfl

theorem char_opposite_ne (q : Quote) : q.opposite.char ≠ q.char := by cases q <;> decide

end Quote

end Relocate
