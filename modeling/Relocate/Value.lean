/-!
# Values

Data of no fixed shape, as configuration files and reports hold it. A table
keeps the order of its fields; if a name occurs twice, the later field counts.
A number with a fraction or an exponent is kept as it is written: nothing in
this library is such a number.
-/
namespace Relocate

inductive Value where
  | null
  | bool (b : Bool)
  | int (n : Int)
  | real (text : String)
  | str (s : String)
  | array (items : List Value)
  | table (fields : List (String × Value))
  deriving Inhabited, Repr

namespace Value

def get? (v : Value) (name : String) : Option Value :=
  match v with
  | table fields => fields.reverse.lookup name
  | _ => none

def string? : Value → Option String
  | str s => some s
  | _ => none

def bool? : Value → Option Bool
  | bool b => some b
  | _ => none

/-- A count: a whole number of at most 64 bits. -/
def count? : Value → Option Nat
  | int (.ofNat n) => if n < UInt64.size then some n else none
  | _ => none

/-- An array, each item read by `item?`. -/
def list? {α : Type} (item? : Value → Option α) : Value → Option (List α)
  | array items => items.mapM item?
  | _ => none

def strings? (v : Value) : Option (List String) := v.list? string?

/-- A name out of a fixed set: as a string, or as a table whose only field has
that name and no value. -/
def choice? : Value → Option String
  | str s => some s
  | table [(s, null)] => some s
  | _ => none

/-- The fields of a record in the order of `names`: by name from a table, or by
position from an array that is not longer than the record. -/
def record? (names : List String) : Value → Option (List (Option Value))
  | v@(table _) => some (names.map v.get?)
  | array items =>
    if items.length ≤ names.length then
      some (items.map some ++ List.replicate (names.length - items.length) none)
    else none
  | _ => none

/-- An array without its items after the first `n`; anything else as it is. -/
def truncate (n : Nat) : Value → Value
  | array items => array (items.take n)
  | v => v

/-- The fields without those whose name comes again later. -/
def distinct : List (String × Value) → List (String × Value)
  | [] => []
  | field :: fields =>
    if fields.any (·.1 == field.1) then distinct fields else field :: distinct fields

/-- Reads a field that may be missing. -/
def orElse {α : Type} (default : α) (read? : Value → Option α) : Option Value → Option α
  | none => some default
  | some v => read? v

/-- Reads a field that must be there. -/
def required {α : Type} (read? : Value → Option α) (v : Option Value) : Option α := v.bind read?

end Value

mutual

/-- The first value overridden by the second: tables field by field, all else
as a whole. -/
def Value.merge : Value → Value → Value
  | .table fields, .table others => .table (mergeFields fields others)
  | _, other => other

/-- The fields of a table, each overridden by the last field of its name among
the others, and then the others that have no such name. -/
def mergeFields : List (String × Value) → List (String × Value) → List (String × Value)
  | [], others => others
  | (name, v) :: fields, others =>
    match others.reverse.lookup name with
    | some other =>
      (name, v.merge other) :: mergeFields fields (others.filter fun field => field.1 != name)
    | none => (name, v) :: mergeFields fields others

end

end Relocate
