import Relocate.Toml.Scalar
import Relocate.Toml.Table

/-!
# Reading TOML

`read?` accepts the documents of TOML 1.0 and gives the table they spell, as
long as nothing in them is nested too deeply: a key has fewer than 80 names,
and fewer than 80 arrays and inline tables lie in each other. A document that
is not well-formed, or that defines a key or a table twice, has no value.
Recursion over the text is bounded by a number of steps that its length always
covers.
-/
namespace Relocate.Toml

open Text

/-! ## Between statements -/

def skipWhite (t : List Char) : List Char := t.dropWhile isWhite

/-- What follows the rest of a comment and its line end. -/
def skipComment? : List Char → Option (List Char)
  | [] => some []
  | '\n' :: t => some t
  | '\r' :: '\n' :: t => some t
  | c :: t => if isPlain c then skipComment? t else none

/-- What follows white space, line ends and comments. -/
def skipTrivia? (inComment : Bool) : List Char → Option (List Char)
  | [] => some []
  | '\n' :: t => skipTrivia? false t
  | '\r' :: '\n' :: t => skipTrivia? false t
  | c :: t =>
    if inComment then if isPlain c then skipTrivia? true t else none
    else if isWhite c then skipTrivia? false t
    else if c = '#' then skipTrivia? true t
    else some (c :: t)

/-- What follows the end of a line, a comment before it included. -/
def skipLineEnd? (t : List Char) : Option (List Char) :=
  match skipWhite t with
  | [] => some []
  | '\n' :: t => some t
  | '\r' :: '\n' :: t => some t
  | '#' :: t => skipComment? t
  | _ => none

/-! ## Keys -/

def isBareChar (c : Char) : Bool := c.isAlphanum || c == '_' || c == '-'

def readSimpleKey? : List Char → Option (String × List Char)
  | '"' :: t => (readBasic? t).map fun r => (String.ofList r.1, r.2)
  | '\'' :: t => (readLiteral? t).map fun r => (String.ofList r.1, r.2)
  | t =>
    let key := t.takeWhile isBareChar
    if key.isEmpty then none else some (String.ofList key, t.dropWhile isBareChar)

/-- How many names a key may have, and how many arrays and inline tables may
lie in each other. -/
def maxDepth : Nat := 79

/-- A key of at most `n` names, and the text after it and after white space. -/
def readNames? : (n : Nat) → List Char → Option (List String × List Char)
  | 0, _ => none
  | n + 1, t =>
    (readSimpleKey? (skipWhite t)).bind fun (name, t) =>
      match skipWhite t with
      | '.' :: t => (readNames? n t).map fun r => (name :: r.1, r.2)
      | t => some ([name], t)

/-- A key with its dots, and the text after it and after white space. -/
def readKey? (t : List Char) : Option (List String × List Char) := readNames? maxDepth t

/-! ## Values -/

mutual

/-- A value at the front of a text, and the text after it. `depth` is how many
more arrays and inline tables may lie in each other. -/
def readValue? : (fuel depth : Nat) → List Char → Option (Value × List Char)
  | 0, _, _ => none
  | fuel + 1, depth, t =>
    match t with
    | '"' :: '"' :: '"' :: t =>
      (readLongBasic? false (dropLineEnd t)).map fun r => (.str (String.ofList r.1), r.2)
    | '"' :: t => (readBasic? t).map fun r => (.str (String.ofList r.1), r.2)
    | '\'' :: '\'' :: '\'' :: t =>
      (readLongLiteral? (dropLineEnd t)).map fun r => (.str (String.ofList r.1), r.2)
    | '\'' :: t => (readLiteral? t).map fun r => (.str (String.ofList r.1), r.2)
    | '[' :: t =>
      if depth = 0 then none
      else (readItems? fuel (depth - 1) t).map fun r => (.array r.1, r.2)
    | '\x7b' :: t =>
      if depth = 0 then none
      else match skipWhite t with
        | '\x7d' :: t => some (.table [], t)
        | t =>
          (readRows? fuel (depth - 1) t).bind fun r => (inlineTable? r.1).map fun v => (v, r.2)
    | t => (tokenValue? (splitToken t).1).map fun v => (v, (splitToken t).2)

/-- The rest of an array. -/
def readItems? : (fuel depth : Nat) → List Char → Option (List Value × List Char)
  | 0, _, _ => none
  | fuel + 1, depth, t =>
    (skipTrivia? false t).bind fun t =>
      match t with
      | ']' :: t => some ([], t)
      | t =>
        (readValue? fuel depth t).bind fun (v, t) =>
          (skipTrivia? false t).bind fun t =>
            match t with
            | ',' :: t => (readItems? fuel depth t).map fun r => (v :: r.1, r.2)
            | ']' :: t => some ([v], t)
            | _ => none

/-- The rest of an inline table that is not empty. -/
def readRows? :
    (fuel depth : Nat) → List Char → Option (List (List String × Value) × List Char)
  | 0, _, _ => none
  | fuel + 1, depth, t =>
    (readKey? t).bind fun (key, t) =>
      match t with
      | '=' :: t =>
        (readValue? fuel depth (skipWhite t)).bind fun (v, t) =>
          match skipWhite t with
          | ',' :: t => (readRows? fuel depth t).map fun r => ((key, v) :: r.1, r.2)
          | '\x7d' :: t => some ([(key, v)], t)
          | _ => none
      | _ => none

end

/-! ## Documents -/

/-- The statement at the front of a text, and the text after its line. -/
def readStatement? (t : List Char) : Option (Statement × List Char) :=
  match t with
  | '[' :: '[' :: t => do
    let (key, t) ← readKey? t
    let t ← skipLineEnd? (← expect? ']' (← expect? ']' t))
    return (.arrayHeader key, t)
  | '[' :: t => do
    let (key, t) ← readKey? t
    let t ← skipLineEnd? (← expect? ']' t)
    return (.header key, t)
  | t => do
    let (key, t) ← readKey? t
    let t ← expect? '=' t
    let (v, t) ← readValue? (2 * t.length + 2) maxDepth (skipWhite t)
    let t ← skipLineEnd? t
    return (.setting key v, t)

def readStatements? : Nat → List Char → Option (List Statement)
  | 0, _ => none
  | fuel + 1, t =>
    (skipTrivia? false t).bind fun t =>
      if t.isEmpty then some []
      else (readStatement? t).bind fun (s, t) => (readStatements? fuel t).map (s :: ·)

/-- The table that a whole document spells; a byte order mark may come first. -/
def read? (s : String) : Option Value :=
  let t := match s.toList with
    | '\ufeff' :: t => t
    | t => t
  (readStatements? (t.length + 1) t).bind build?

end Relocate.Toml
