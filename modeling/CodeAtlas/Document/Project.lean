import CodeAtlas.Document.Value
import CodeAtlas.Error
import CodeAtlas.FileSystem.Resolve
import CodeAtlas.Project
import CodeAtlas.Yaml.Printer
import CodeAtlas.Yaml.Reader
/-!
The document about a project: what is known of it, in a form that people can read.
-/

namespace CodeAtlas

/-- What the document tells. Ids, states and times are texts there. -/
structure ProjectDocument where
  id : String
  name : String
  rootPath : String
  indexedAt : Option String
  totalFiles : Nat
  totalSymbols : Nat
  status : String
  config : List (String × Json)
deriving BEq

namespace ProjectDocument

def ofProject (p : Project) : ProjectDocument where
  id := p.id.render
  name := p.name
  rootPath := p.rootPath
  indexedAt := p.indexedAt.map Timestamp.renderOffset
  totalFiles := p.fileCount
  totalSymbols := p.symbolCount
  status := p.status.name
  config := p.config

def toYaml (d : ProjectDocument) : Yaml :=
  .record [("project", some (.record [
    ("id", some (.str d.id)),
    ("name", some (.str d.name)),
    ("root_path", some (.str d.rootPath)),
    ("indexed_at", some (.ofOption .str d.indexedAt)),
    ("statistics", some (.record [
      ("total_files", some (.nat d.totalFiles)),
      ("total_symbols", some (.nat d.totalSymbols))])),
    ("status", some (.str d.status)),
    ("config", some (.ofJson (.obj d.config)))]))]

/-- How many collections may be in each other in the values of a configuration. -/
def maxDepth : Nat := 125

/-- The document of a YAML value. The configuration and the time may be missing, and fields that
are not known are passed over; of entries of the configuration with one key the last counts. -/
def ofYaml? (v : Yaml) : Option ProjectDocument := do
  let body ← ← Yaml.field? "project" (← keyed v)
  let fields ← keyed body
  let statistics ← keyed (← ← Yaml.field? "statistics" fields)
  let config ← match ← Yaml.field? "config" fields with
    | some v => Yaml.toJsonEntries? maxDepth (← v.entries?)
    | none => some []
  some {
    id := ← (← ← Yaml.field? "id" fields).text?
    name := ← (← ← Yaml.field? "name" fields).text?
    rootPath := ← (← ← Yaml.field? "root_path" fields).text?
    indexedAt := ← match ← Yaml.field? "indexed_at" fields with
      | some v => v.optionalText?
      | none => some none
    totalFiles := ← (← ← Yaml.field? "total_files" statistics).nat?
    totalSymbols := ← (← ← Yaml.field? "total_symbols" statistics).nat?
    status := ← (← ← Yaml.field? "status" fields).text?
    config := Keyed.ofList config }
where
  /-- The entries of a table whose keys are scalars. -/
  keyed (v : Yaml) : Option (List (Yaml × Yaml)) := do
    let entries ← v.entries?
    if entries.all fun (k, _) => k.text?.isSome then some entries else none

def render (d : ProjectDocument) : String := d.toYaml.render

/-- The document of a text. -/
def parse (text : String) : Except Failure ProjectDocument :=
  match (Yaml.parse? text).bind ofYaml? with
  | some d => .ok d
  | none => .error (.yaml "not a project document")

/-- Reads the document of a file. -/
def load (fs : FileSystem) (path : String) : Except Failure ProjectDocument :=
  match fs.readText path with
  | .ok text => parse text
  | .error e => .error e.failure

end ProjectDocument

end CodeAtlas
