import CodeAtlas.Collection.Point
import CodeAtlas.Project
import CodeAtlas.SourceFile
/-!
Projects, files and symbols as payloads of points, and back. Every payload tells its type and the
id of its project.
-/

namespace CodeAtlas

/-- What a store knows about a file. -/
structure StoredFile where
  path : String
  language : String
  hash : String
  size : Nat
  status : ParseStatus
  symbols : Nat
deriving DecidableEq, Repr

/-- A file with the ids under which its symbols are filed: those of the functions come first. -/
structure FiledSource where
  file : SourceFile
  ids : List Uuid
  length_ids : ids.length = file.symbolCount

namespace Payload

def ofEntries (entries : List (String × Json)) : Payload := Keyed.ofList entries

/-! ## Writing -/

def optional (s : Option String) : Json := .ofOption .str s

def ofProject (p : Project) : Payload := ofEntries [
  ("type", .str "project"),
  ("project_id", .str p.id.render),
  ("name", .str p.name),
  ("root_path", .str p.rootPath),
  ("status", .str p.status.name),
  ("file_count", .nat p.fileCount),
  ("symbol_count", .nat p.symbolCount),
  ("indexed_at", optional (p.indexedAt.map Timestamp.renderOffset)),
  ("config", .obj p.config)]

def ofFile (project : Uuid) (f : SourceFile) : Payload := ofEntries [
  ("type", .str "file"),
  ("project_id", .str project.render),
  ("file_path", .str f.path),
  ("language", .str f.language),
  ("content_hash", .str f.hash),
  ("size_bytes", .nat f.size),
  ("last_modified", .str f.modified.renderOffset),
  ("parse_status", .str f.status.name),
  ("error_message", optional f.message),
  ("symbol_count", .nat f.symbolCount)]

def symbolType (f : FunctionRecord) : String := if f.isMethod then "method" else "function"

def ofFunction (project : Uuid) (file : SourceFile) (f : FunctionRecord) : Payload := ofEntries [
  ("type", .str "symbol"),
  ("project_id", .str project.render),
  ("file_path", .str file.path),
  ("language", .str file.language),
  ("content_hash", .str file.hash),
  ("symbol_type", .str (symbolType f)),
  ("symbol_name", .str f.name),
  ("line_number", .nat f.line),
  ("end_line", .nat f.endLine),
  ("signature", .str f.signature),
  ("return_type", optional f.returnType),
  ("docstring", optional f.docstring),
  ("is_async", .bool f.isAsync),
  ("parent_class", optional f.parentClass),
  ("decorators", .strings f.decorators)]

def ofClass (project : Uuid) (file : SourceFile) (c : ClassRecord) : Payload := ofEntries [
  ("type", .str "symbol"),
  ("project_id", .str project.render),
  ("file_path", .str file.path),
  ("language", .str file.language),
  ("content_hash", .str file.hash),
  ("symbol_type", .str "class"),
  ("symbol_name", .str c.name),
  ("line_number", .nat c.line),
  ("end_line", .nat c.endLine),
  ("parent_classes", .strings c.parents),
  ("method_names", .strings c.methods),
  ("docstring", optional c.docstring),
  ("decorators", .strings c.decorators)]

/-! ## Texts for the embedder -/

def onNextLine : Option String → String
  | some s => "\n" ++ s
  | none => ""

/-- What is told about a function to find it by its meaning. -/
def functionText (file : SourceFile) (f : FunctionRecord) : String :=
  symbolType f ++ " " ++ f.name ++ " in " ++ file.path ++
    (match f.parentClass with
      | some parent => " (class " ++ parent ++ ")"
      | none => "") ++
    "\n" ++ f.signature ++ onNextLine f.docstring

/-- What is told about a class to find it by its meaning. -/
def classText (file : SourceFile) (c : ClassRecord) : String :=
  "class " ++ c.name ++ " in " ++ file.path ++
    (if c.parents.isEmpty then "" else " extends " ++ ", ".intercalate c.parents) ++
    (if c.methods.isEmpty then "" else "\nmethods: " ++ ", ".intercalate c.methods) ++
    onNextLine c.docstring

/-! ## Reading -/

/-- The project of a point, if it is one. What is missing has its default. -/
def toProject? (p : Point) : Option Project := do
  let payload := p.payload
  if payload.getStr? "type" != some "project" then none
  else
    let id ← Uuid.parse? ((payload.getStr? "project_id").getD p.id)
    some {
      id
      name := (payload.getStr? "name").getD ""
      rootPath := (payload.getStr? "root_path").getD ""
      status := ((payload.getStr? "status").bind fun s => (ProjectStatus.parse s).toOption).getD
        .active
      fileCount := payload.getNat "file_count"
      symbolCount := payload.getNat "symbol_count"
      indexedAt := (payload.getStr? "indexed_at").bind Timestamp.parse?
      config := ((payload.get? "config").bind Json.obj?).getD [] }

/-- The file of a payload, if it has a path and a hash. -/
def toFile? (payload : Payload) : Option StoredFile := do
  some {
    path := ← payload.getStr? "file_path"
    hash := ← payload.getStr? "content_hash"
    language := (payload.getStr? "language").getD ""
    size := payload.getNat "size_bytes"
    status := ((payload.getStr? "parse_status").bind fun s => (ParseStatus.parse s).toOption).getD
      .success
    symbols := payload.getNat "symbol_count" }

end Payload

end CodeAtlas
