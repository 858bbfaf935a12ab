import CodeAtlas.Toml.Number
import CodeAtlas.Toml.Quoted
/-!
Reading TOML texts: first a list of statements, then the table that they describe.
-/

namespace CodeAtlas.Toml

/-! ## Values -/

def skipBlanks (cs : List Char) : List Char := cs.dropWhile isBlank

/-- What follows a comment. -/
def skipComment (cs : List Char) : List Char := cs.dropWhile isPlain

/-- What follows blanks, line ends and comments. -/
def skipSpace : Nat → List Char → Option (List Char)
  | 0, _ => none
  | fuel + 1, cs =>
    match skipBlanks cs with
    | '\n' :: rest => skipSpace fuel rest
    | '\r' :: '\n' :: rest => skipSpace fuel rest
    | '#' :: rest =>
      match skipComment rest with
      | '\n' :: rest => skipSpace fuel rest
      | '\r' :: '\n' :: rest => skipSpace fuel rest
      | _ => none
    | rest => some rest

/-- One name of a key. -/
def readName (cs : List Char) : Option (String × List Char) :=
  match cs with
  | '"' :: rest => (readBasic rest).map fun (text, rest) => (.ofList text, rest)
  | '\'' :: rest => (readLiteral rest).map fun (text, rest) => (.ofList text, rest)
  | _ =>
    let name := cs.takeWhile isBare
    if name.isEmpty then none else some (.ofList name, cs.dropWhile isBare)

/-- The names of a key, with points between them. -/
def readKey : Nat → List Char → Option (List String × List Char)
  | 0, _ => none
  | fuel + 1, cs => do
    let (name, rest) ← readName (skipBlanks cs)
    match skipBlanks rest with
    | '.' :: rest =>
      let (names, rest) ← readKey fuel rest
      some (name :: names, rest)
    | rest => some ([name], rest)

/-- A table within which keys may still be defined or not. -/
inductive Draft where
  | value (v : Toml)
  /-- A table that is open to further keys by dotted keys if `dotted`, to a header of its own if
  it is only `implicit`. -/
  | table (implicit dotted : Bool) (entries : List (String × Draft))
  /-- An array of tables, the last first. -/
  | tables (items : List Draft)

namespace Draft

def empty : Draft := table false false []

mutual
/-- The value of a finished draft. -/
def finish : Draft → Toml
  | value v => v
  | table _ _ es => .table (finishEntries es)
  | tables items => .arr (finishItems items).reverse

def finishEntries : List (String × Draft) → List (String × Toml)
  | [] => []
  | (k, d) :: rest => (k, finish d) :: finishEntries rest

def finishItems : List Draft → List Toml
  | [] => []
  | d :: rest => finish d :: finishItems rest
end

/-- Goes down a path of tables, which are made if they are missing, and changes the table at its
end. By a dotted key (`dotted`) only tables are reached that have no header of their own. -/
def descend (dotted : Bool) (change : Draft → Option Draft) : List String → Draft → Option Draft
  | [], d => change d
  | name :: rest, table implicit isDotted es =>
    match Keyed.get? name es with
    | none => do
      let d ← descend dotted change rest (table true dotted [])
      some (table implicit isDotted (Keyed.insert name d es))
    | some (value _) => none
    | some (tables items) =>
      match items with
      | [] => none
      | last :: before => do
        let d ← descend dotted change rest last
        some (table implicit isDotted (Keyed.insert name (tables (d :: before)) es))
    | some (table childImplicit childDotted childEntries) =>
      if dotted && !childImplicit then none
      else do
        let d ← descend dotted change rest (table childImplicit childDotted childEntries)
        some (table implicit isDotted (Keyed.insert name d es))
  | _ :: _, _ => none

/-- Adds a key to a table that is reached by a dotted key or not. -/
def addEntry (byDotted : Bool) (name : String) (v : Draft) : Draft → Option Draft
  | table implicit dotted es =>
    if dotted != byDotted || Keyed.contains name es then none
    else some (table implicit dotted (Keyed.insert name v es))
  | _ => none

/-- Adds a value under a key. -/
def define (d : Draft) (key : List String) (v : Toml) : Option Draft :=
  match key.reverse with
  | [] => none
  | name :: above => descend true (addEntry (!above.isEmpty) name (value v)) above.reverse d

end Draft

mutual
/-- A value. -/
def readValue : Nat → List Char → Option (Toml × List Char)
  | 0, _ => none
  | fuel + 1, cs =>
    match cs with
    | '"' :: _ | '\'' :: _ => (readQuoted cs).map fun (text, rest) => (.str (.ofList text), rest)
    | '[' :: rest => readItems fuel rest []
    | '\x7b' :: rest =>
      match skipBlanks rest with
      | '\x7d' :: rest => some (.table [], rest)
      | rest => readEntries fuel rest Draft.empty
    | 't' :: 'r' :: 'u' :: 'e' :: rest => some (.bool true, rest)
    | 'f' :: 'a' :: 'l' :: 's' :: 'e' :: rest => some (.bool false, rest)
    | _ => readNumber cs

/-- The items of an array behind its bracket or a comma. -/
def readItems : Nat → List Char → List Toml → Option (Toml × List Char)
  | 0, _, _ => none
  | fuel + 1, cs, acc => do
    match ← skipSpace (cs.length + 1) cs with
    | ']' :: rest => some (.arr acc.reverse, rest)
    | cs =>
      let (v, rest) ← readValue fuel cs
      match ← skipSpace (rest.length + 1) rest with
      | ',' :: rest => readItems fuel rest (v :: acc)
      | ']' :: rest => some (.arr (v :: acc).reverse, rest)
      | _ => none

/-- The entries of a table in braces. -/
def readEntries : Nat → List Char → Draft → Option (Toml × List Char)
  | 0, _, _ => none
  | fuel + 1, cs, acc => do
    let (key, rest) ← readKey (cs.length + 1) cs
    match rest with
    | '=' :: rest =>
      let (v, rest) ← readValue fuel (skipBlanks rest)
      let acc ← acc.define key v
      match skipBlanks rest with
      | ',' :: rest => readEntries fuel rest acc
      | '\x7d' :: rest => some (acc.finish, rest)
      | _ => none
    | _ => none
end

/-! ## Statements -/

/-- A statement: a key with its value, or the header of a table or of one of several tables. -/
inductive Statement where
  | entry (key : List String) (value : Toml)
  | header (key : List String)
  | item (key : List String)

/-- What follows the rest of a line: blanks and a comment at most. -/
def endOfLine (cs : List Char) : Option (List Char) :=
  let rest := match skipBlanks cs with
    | '#' :: rest => skipComment rest
    | rest => rest
  match rest with
  | [] => some []
  | '\n' :: rest => some rest
  | '\r' :: '\n' :: rest => some rest
  | _ => none

/-- A statement at the beginning of the text. -/
def readStatement (cs : List Char) : Option (Statement × List Char) :=
  match cs with
  | '[' :: '[' :: rest => do
    let (key, rest) ← readKey (rest.length + 1) rest
    match rest with
    | ']' :: ']' :: rest => some (.item key, ← endOfLine rest)
    | _ => none
  | '[' :: rest => do
    let (key, rest) ← readKey (rest.length + 1) rest
    match rest with
    | ']' :: rest => some (.header key, ← endOfLine rest)
    | _ => none
  | _ => do
    let (key, rest) ← readKey (cs.length + 1) cs
    match rest with
    | '=' :: rest =>
      let (v, rest) ← readValue (2 * rest.length + 2) (skipBlanks rest)
      some (.entry key v, ← endOfLine rest)
    | _ => none

/-- The statements of a text. -/
def readStatements : Nat → List Char → Option (List Statement)
  | 0, _ => none
  | fuel + 1, cs =>
    match skipBlanks cs with
    | [] => some []
    | '\n' :: rest => readStatements fuel rest
    | '\r' :: '\n' :: rest => readStatements fuel rest
    | '#' :: rest => do readStatements fuel (← endOfLine ('#' :: rest))
    | cs => do
      let (s, rest) ← readStatement cs
      (readStatements fuel rest).map (s :: ·)

/-! ## Tables -/

/-- A document in the making: what is finished, and the table whose keys are being defined, with
its place. -/
structure Build where
  root : Draft := .empty
  place : List String := []
  isItem : Bool := false
  current : Draft := .empty

namespace Build

/-- Puts a finished table at the end of an array of tables. -/
def pushItem (name : String) (new : Draft) : Draft → Option Draft
  | .table implicit dotted es =>
    match Keyed.get? name es with
    | none => some (.table implicit dotted (Keyed.insert name (.tables [new]) es))
    | some (.tables items) =>
      some (.table implicit dotted (Keyed.insert name (.tables (new :: items)) es))
    | some _ => none
  | _ => none

/-- Puts a finished table at its place. A table that is there already is only one that headers
below it have made. -/
def putTable (name : String) (new : Draft) : Draft → Option Draft
  | .table implicit dotted es =>
    match Keyed.get? name es with
    | none | some (.table true _ _) =>
      some (.table implicit dotted (Keyed.insert name new es))
    | some _ => none
  | _ => none

/-- Finishes the table whose keys are being defined. -/
def close (b : Build) : Option Draft :=
  match b.place.reverse with
  | [] => some b.current
  | name :: above =>
    b.root.descend false (if b.isItem then pushItem name b.current else putTable name b.current)
      above.reverse

/-- The table that headers below it have made, taken out of its place. -/
def takeImplicit (name : String) : Draft → Option (Draft × Draft)
  | .table implicit dotted es =>
    match Keyed.get? name es with
    | none => some (.empty, .table implicit dotted es)
    | some (.table true false inner) =>
      some (.table false false inner, .table implicit dotted (Keyed.erase name es))
    | some _ => none
  | _ => none

/-- The draft at the end of a path of tables. -/
def find? : List String → Draft → Option Draft
  | [], d => some d
  | name :: rest, .table _ _ es =>
    match Keyed.get? name es with
    | none => some (.table true false [])
    | some (.tables (last :: _)) => find? rest last
    | some (.table i d inner) => find? rest (.table i d inner)
    | some _ => none
  | _ :: _, _ => none

/-- Begins the table of a header. -/
def openTable (key : List String) (root : Draft) : Option Build :=
  match key.reverse with
  | [] => none
  | name :: above => do
    let parent ← find? above.reverse root
    let (current, _) ← takeImplicit name parent
    let root ← root.descend false (fun d => (takeImplicit name d).map (·.2)) above.reverse
    some { root, place := key, isItem := false, current }

/-- Whether another table may be put at the end of an array of tables. -/
def takesItem (name : String) : Draft → Option Draft
  | .table implicit dotted es =>
    match Keyed.get? name es with
    | none | some (.tables _) => some (.table implicit dotted es)
    | some _ => none
  | _ => none

/-- Begins one of several tables. -/
def openItem (key : List String) (root : Draft) : Option Build :=
  match key.reverse with
  | [] => none
  | name :: above => do
    let root ← root.descend false (takesItem name) above.reverse
    some { root, place := key, isItem := true }

def add (b : Build) : Statement → Option Build
  | .entry key v => do
    let current ← b.current.define key v
    some { b with current }
  | .header key => do openTable key (← b.close)
  | .item key => do openItem key (← b.close)

end Build

/-- The table of statements. -/
def ofStatements? (statements : List Statement) : Option Toml := do
  let b ← statements.foldlM Build.add {}
  (← b.close).finish

/-- The table of a text. -/
def parse? (text : String) : Option Toml :=
  let cs := match text.toList with
    | '\uFEFF' :: rest => rest
    | cs => cs
  (readStatements (cs.length + 1) cs).bind ofStatements?

end CodeAtlas.Toml
