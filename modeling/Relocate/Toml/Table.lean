import Relocate.Value

/-!
# Building tables

Settings and headers of a document are put into a tree one after another. The
tree remembers how each table came about, because that decides what may still
be added: a table that a header opened is closed to dotted keys and to a
second header, a table that a longer header passed through may get a header of
its own once, a table made by dotted keys takes more dotted keys and no
header. A value, an inline table included, takes nothing.
-/
namespace Relocate.Toml

/-- How a table came about. -/
inductive Origin where
  /-- By its own header. -/
  | header
  /-- On the way of a longer header. -/
  | implicit
  /-- On the way of a dotted key. -/
  | dotted
  deriving DecidableEq, Repr

inductive Node where
  | leaf (value : Value)
  | table (origin : Origin) (fields : List (String × Node))
  /-- An array of tables; its last item is still open. -/
  | tables (items : List (List (String × Node)))
  deriving Inhabited

abbrev Fields := List (String × Node)

/-- Replaces the field `name`. -/
def setField (name : String) (node : Node) (fields : Fields) : Fields :=
  fields.map fun field => if field.1 = name then (name, node) else field

/-- Changes the last item of a list. -/
def modifyLast? {α : Type} (f : α → Option α) : List α → Option (List α)
  | [] => none
  | [a] => (f a).map ([·])
  | a :: as => (modifyLast? f as).map (a :: ·)

/-- Adds a setting under a dotted key. -/
def assign? : List String → Value → Fields → Option Fields
  | [], _, _ => none
  | [name], v, fields =>
    match fields.lookup name with
    | none => some (fields ++ [(name, .leaf v)])
    | some _ => none
  | name :: more, v, fields =>
    match fields.lookup name with
    | none => (assign? more v []).map fun sub => fields ++ [(name, .table .dotted sub)]
    | some (.table origin sub) =>
      if origin = .header ∨ (origin = .implicit ∧ more.length = 1) then none
      else (assign? more v sub).map fun sub => setField name (.table origin sub) fields
    | some (.tables items) =>
      if more.length = 1 then none
      else (modifyLast? (assign? more v) items).map fun items =>
        setField name (.tables items) fields
    | some (.leaf _) => none

/-- Opens the table of a header, or the next table of an array of tables. -/
def openTable? (isArray : Bool) : List String → Fields → Option Fields
  | [], _ => none
  | [name], fields =>
    match isArray, fields.lookup name with
    | false, none => some (fields ++ [(name, .table .header [])])
    | false, some (.table .implicit sub) => some (setField name (.table .header sub) fields)
    | true, none => some (fields ++ [(name, .tables [[]])])
    | true, some (.tables items) => some (setField name (.tables (items ++ [[]])) fields)
    | _, _ => none
  | name :: more, fields =>
    match fields.lookup name with
    | none => (openTable? isArray more []).map fun sub => fields ++ [(name, .table .implicit sub)]
    | some (.table origin sub) =>
      (openTable? isArray more sub).map fun sub => setField name (.table origin sub) fields
    | some (.tables items) =>
      (modifyLast? (openTable? isArray more) items).map fun items =>
        setField name (.tables items) fields
    | some (.leaf _) => none

/-- Applies a change to the table that a header opened. -/
def within? (change : Fields → Option Fields) : List String → Fields → Option Fields
  | [], fields => change fields
  | name :: more, fields =>
    match fields.lookup name with
    | some (.table origin sub) =>
      (within? change more sub).map fun sub => setField name (.table origin sub) fields
    | some (.tables items) =>
      (modifyLast? (within? change more) items).map fun items =>
        setField name (.tables items) fields
    | _ => none

mutual

def Node.toValue : Node → Value
  | .leaf v => v
  | .table _ fields => .table (fieldValues fields)
  | .tables items => .array (tableValues items)

def fieldValues : List (String × Node) → List (String × Value)
  | [] => []
  | (name, node) :: fields => (name, node.toValue) :: fieldValues fields

def tableValues : List (List (String × Node)) → List Value
  | [] => []
  | fields :: items => .table (fieldValues fields) :: tableValues items

end

/-- The value of an inline table. -/
def inlineTable? (rows : List (List String × Value)) : Option Value :=
  (rows.foldlM (fun fields row => assign? row.1 row.2 fields) []).map fun fields =>
    .table (fieldValues fields)

/-- A line of a document. -/
inductive Statement where
  | setting (key : List String) (value : Value)
  | header (key : List String)
  | arrayHeader (key : List String)

/-- The tables so far and the header that settings go under. -/
structure Draft where
  fields : Fields := []
  current : List String := []

def Draft.add? (d : Draft) : Statement → Option Draft
  | .setting key v =>
    (within? (assign? key v) d.current d.fields).map fun fields => { d with fields }
  | .header key => (openTable? false key d.fields).map fun fields => ⟨fields, key⟩
  | .arrayHeader key => (openTable? true key d.fields).map fun fields => ⟨fields, key⟩

/-- The table that a document's statements build. -/
def build? (statements : List Statement) : Option Value :=
  (statements.foldlM Draft.add? {}).map fun d => .table (fieldValues d.fields)

end Relocate.Toml
