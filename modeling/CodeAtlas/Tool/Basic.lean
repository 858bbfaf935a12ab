import CodeAtlas.Json.Basic
/-!
The catalogue of tools: what each of them is for, and which values may be passed to it.
-/

namespace CodeAtlas

/-- What can be asked for. -/
inductive Tool where
  | index | update | search | list | delete
deriving DecidableEq, Repr

/-- The values that a parameter takes. -/
inductive ParameterKind where
  | text
  | texts
  /-- A yes or no, which is no if it is not passed. -/
  | flag
  | count (least most : Nat)
deriving DecidableEq, Repr

/-- A parameter of a tool. -/
structure ToolParameter where
  name : String
  kind : ParameterKind
  description : String
  isRequired : Bool := false
deriving DecidableEq, Repr

namespace ToolParameter

/-- What a schema says about the values of a parameter. -/
def schema (p : ToolParameter) : Json :=
  .ofEntries (("description", .str p.description) ::
    match p.kind with
    | .text => [("type", .str "string")]
    | .texts => [("type", .str "array"), ("items", .ofEntries [("type", .str "string")])]
    | .flag => [("type", .str "boolean"), ("default", .bool false)]
    | .count least most =>
      [("type", .str "integer"), ("minimum", .nat least), ("maximum", .nat most)])

end ToolParameter

namespace Tool

def all : List Tool := [index, update, search, list, delete]

def name : Tool → String
  | index => "index_project"
  | update => "update_project_index"
  | search => "search_architecture"
  | list => "list_indexed_projects"
  | delete => "delete_project_index"

def ofName? (s : String) : Option Tool := all.find? (·.name == s)

theorem ofName?_name (t : Tool) : ofName? t.name = some t := by cases t <;> decide

theorem name_of_ofName? {s : String} {t : Tool} (h : ofName? s = some t) : t.name = s := by
  simpa using List.find?_some h

def description : Tool → String
  | index => "Index a codebase to understand its architecture"
  | update => "Update index for changed files in a project"
  | search => "Search indexed project architecture"
  | list => "List all indexed projects"
  | delete => "Remove a project from the index"

/-- A search gives no more hits than this. -/
def maxHits : Nat := 100

/-- A search gives so many hits if it is not told how many. -/
def usualHits : Nat := 10

def parameters : Tool → List ToolParameter
  | index => [
    ⟨"path", .text, "Absolute path to the project root directory", true⟩,
    ⟨"exclude_patterns", .texts, "Additional glob patterns to exclude (e.g. 'tests/**')", false⟩]
  | update => [
    ⟨"project_id", .text, "ID of the project to update", true⟩,
    ⟨"force_full", .flag, "Re-parse every file instead of only changed ones", false⟩]
  | search => [
    ⟨"query", .text, "Natural-language description of the code to find", true⟩,
    ⟨"project_id", .text, "Project to search (optional, searches all if omitted)", false⟩,
    ⟨"limit", .count 1 maxHits, "Maximum number of results (default 10)", false⟩]
  | list => []
  | delete => [⟨"project_id", .text, "ID of the project to delete", true⟩]

/-- The schema of the arguments of a tool. Which parameters are required is not said if there are
no parameters. -/
def schema (t : Tool) : Json :=
  let required := (t.parameters.filter (·.isRequired)).map (·.name)
  .ofEntries ([("type", .str "object"),
      ("properties", .ofEntries (t.parameters.map fun p => (p.name, p.schema)))] ++
    if t.parameters.isEmpty then [] else [("required", .strings required)])

/-- How a tool is described to a client of the server. -/
def definition (t : Tool) : Json := .ofEntries [
  ("name", .str t.name), ("description", .str t.description), ("inputSchema", t.schema)]

/-- How a tool is described as a function that a language model may call. -/
def functionDefinition (t : Tool) : Json := .ofEntries [
  ("type", .str "function"),
  ("function", .ofEntries [
    ("name", .str t.name), ("description", .str t.description), ("parameters", t.schema)])]

/-- All descriptions in one of the two forms. -/
def definitions (asFunctions : Bool) : Json :=
  .arr (all.map (if asFunctions then functionDefinition else definition))

end Tool

end CodeAtlas
