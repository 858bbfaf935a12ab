import CodeAtlas.Toml.Quoted
/-!
TOML texts of tables: first the keys of a table, then the tables in it, each with a header.
-/

namespace CodeAtlas.Toml

/-- The text of a single value, or none if it has none: a number has to fit into 64 bits, and
neither floats nor tables are written within a line. -/
def renderScalar? : Toml → Option String
  | str s => some (quote s)
  | int n => if -Int.pow 2 63 ≤ n && n < Int.pow 2 63 then some (toString n) else none
  | bool b => some (if b then "true" else "false")
  | _ => none

/-- The text of a value behind its key. An array of several values has a line for each. -/
def renderValue? : Toml → Option String
  | arr items => do
    let texts ← items.mapM renderScalar?
    match texts with
    | [] => some "[]"
    | [text] => some ("[" ++ text ++ "]")
    | _ => some ("[\n" ++ String.join (texts.map fun t => "    " ++ t ++ ",\n") ++ "]")
  | v => renderScalar? v

/-- A line for each key whose value is no table. -/
def renderEntries? (entries : List (String × Toml)) : Option String := do
  let lines ← (entries.filter fun (_, v) => !v.isTable).mapM fun (key, v) => do
    some (key ++ " = " ++ (← renderValue? v) ++ "\n")
  some (String.join lines)

/-- The tables in a table, each behind an empty line and a header. -/
def renderTables? (entries : List (String × Toml)) : Option String := do
  let tables ← entries.mapM fun (key, v) =>
    match v with
    | table inner => do some ("\n[" ++ key ++ "]\n" ++ (← renderEntries? inner))
    | _ => some ""
  some (String.join tables)

/-- The text of a table of values and of tables of values. Keys are written without quotes. -/
def render? (entries : List (String × Toml)) : Option String := do
  some ((← renderEntries? entries) ++ (← renderTables? entries))

end CodeAtlas.Toml
