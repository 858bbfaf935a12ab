import CodeAtlas.Json.Basic
import CodeAtlas.Yaml.Scalar
/-!
The values of which documents are made, as YAML and back.
-/

namespace CodeAtlas.Yaml

/-! ## Writing -/

def int (n : Int) : Yaml := plain (toString n)

def nat (n : Nat) : Yaml := plain (toString n)

def bool (b : Bool) : Yaml := plain (if b then "true" else "false")

def null : Yaml := plain "null"

def float (x : Binary64) : Yaml :=
  plain (if x.isFinite then x.render else if x.isNaN then ".nan"
    else if x.isNegative then "-.inf" else ".inf")

def ofOption {α : Type} (f : α → Yaml) : Option α → Yaml
  | some a => f a
  | none => null

def strs (items : List String) : Yaml := seq (items.map str)

/-- A table with fixed keys. Fields without a value are left out. -/
def record (fields : List (String × Option Yaml)) : Yaml :=
  map (fields.filterMap fun (key, value) => value.map (plain key, ·))

mutual
def ofJson : Json → Yaml
  | .null => null
  | .bool b => bool b
  | .int n => int n
  | .float x => float x
  | .str s => str s
  | .arr items => seq (ofJsonItems items)
  | .obj entries => map (ofJsonEntries entries)

def ofJsonItems : List Json → List Yaml
  | [] => []
  | x :: xs => ofJson x :: ofJsonItems xs

def ofJsonEntries : List (String × Json) → List (Yaml × Yaml)
  | [] => []
  | (k, x) :: xs => (str k, ofJson x) :: ofJsonEntries xs
end

/-! ## Reading -/

/-- The text of a scalar, whatever else it may mean. -/
def text? : Yaml → Option String
  | plain s => some s
  | str s => some s
  | tagged _ (plain s) => some s
  | tagged _ (str s) => some s
  | _ => none

/-- A natural number of 64 bits, not in quotes. -/
def nat? (v : Yaml) : Option Nat :=
  match v.untagged with
  | plain s =>
    let digits := match s.toList with
      | '+' :: rest => rest
      | cs => cs
    (magnitude? digits).bind fun n => if n < Nat.pow 2 64 then some n else none
  | _ => none

/-- A text, or nothing. -/
def optionalText? : Yaml → Option (Option String)
  | plain s => some (if s == "" || isNull s then none else some s)
  | tagged tag (plain s) =>
    if tag == "tag:yaml.org,2002:null" then (if isNull s then some none else none)
    else some (some s)
  | v => v.text?.map some

/-- The entries of a table. Nothing at all is a table without entries. -/
def entries? (v : Yaml) : Option (List (Yaml × Yaml)) :=
  match v.untagged with
  | map entries => some entries
  | plain "" => some []
  | _ => none

/-- The value of a field: `some none` if it is missing. A field may not be there twice. -/
def field? (key : String) (entries : List (Yaml × Yaml)) : Option (Option Yaml) :=
  match entries.filter fun (k, _) => k.text? == some key with
  | [] => some none
  | [(_, v)] => some (some v)
  | _ => none

/-- A number that JSON can hold: whole numbers have 64 bits. -/
def jsonInt? (n : Int) : Option Json :=
  if -Int.pow 2 63 ≤ n && n < Int.pow 2 64 then some (.int n) else none

/-- A double; JSON has none that is not finite. -/
def jsonFloat (x : Binary64) : Json := if x.isFinite then .float x else .null

/-- What a scalar means. -/
def scalarJson? (s : String) : Option Json :=
  match meaning s with
  | .null => some .null
  | .bool b => some (.bool b)
  | .int n => jsonInt? n
  | .float x => some (jsonFloat x)
  | .text => some (.str s)

/-- What a scalar with a tag means. Tags of one's own mean nothing. -/
def taggedJson? (tag s : String) : Option Json :=
  if tag == "tag:yaml.org,2002:bool" then
    match meaning s with
    | .bool b => some (.bool b)
    | _ => none
  else if tag == "tag:yaml.org,2002:int" then
    (int? s.toList).bind fun n => if isWide n then jsonInt? n else none
  else if tag == "tag:yaml.org,2002:float" then (float? s).map jsonFloat
  else if tag == "tag:yaml.org,2002:null" then (if isNull s then some .null else none)
  else some (.str s)

def isOwnTag (tag : String) : Bool := tag.toList.head? == some '!'

mutual
/-- The JSON value of a YAML value with at most so many collections in each other. -/
def toJson? (depth : Nat) : Yaml → Option Json
  | plain s => scalarJson? s
  | str s => some (.str s)
  | tagged tag v =>
    if isOwnTag tag then none
    else match v with
      | plain s => taggedJson? tag s
      | str s => taggedJson? tag s
      | v => toJson? depth v
  | seq items =>
    if depth == 0 then none else (toJsonItems? (depth - 1) items).map .arr
  | map entries =>
    if depth == 0 then none else (toJsonEntries? (depth - 1) entries).map .ofEntries

def toJsonItems? (depth : Nat) : List Yaml → Option (List Json)
  | [] => some []
  | v :: rest =>
    match toJson? depth v, toJsonItems? depth rest with
    | some j, some js => some (j :: js)
    | _, _ => none

def toJsonEntries? (depth : Nat) : List (Yaml × Yaml) → Option (List (String × Json))
  | [] => some []
  | (k, v) :: rest =>
    match k.text?, toJson? depth v, toJsonEntries? depth rest with
    | some k, some j, some js => some ((k, j) :: js)
    | _, _, _ => none
end

end CodeAtlas.Yaml
