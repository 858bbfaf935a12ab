import CodeAtlas.Collection.Call
import CodeAtlas.Config.Basic
import CodeAtlas.Document.Project
import CodeAtlas.HashDiff
import CodeAtlas.Structure
import CodeAtlas.SymbolStore.Payload
/-!
The JSON forms of what is known about projects.
-/

namespace CodeAtlas

namespace Json

def ofText? : Option String → Json := ofOption str

end Json

/-- The name of the kind of a failure. -/
def Failure.kind : Failure → String
  | validation _ => "validation"
  | parse _ => "parse"
  | transient _ => "transient"
  | storage _ => "storage"
  | notFound _ => "not_found"
  | embedding _ => "embedding"
  | config _ => "config"
  | yaml _ => "yaml"
  | internal _ => "internal"
  | io _ _ => "io"
  | json _ => "json"

def Failure.toJson (e : Failure) : Json := .ofEntries [
  ("error", .str e.kind), ("message", .str e.message)]

/-- The form of a call: its operation, and what about it is worth telling. -/
def ClientCall.toJson (call : ClientCall) : Json :=
  let detail : Json := match call with
    | .hasCollection name => .str name
    | .create shape => .arr [.str shape.name, .nat shape.vectorSize, .str shape.distance.name]
    | .createIndex _ key => .str key
    | .upsert _ points => .nat points.length
    | .retrieve _ ids => .strings ids
    | .scroll _ filter limit start => .arr [filter.toJson, .nat limit, .bool start.isSome]
    | .delete _ filter => filter.toJson
    | .search _ vector filter limit => .arr [filter.toJson, .nat limit, .nat vector.length]
  .arr [.str call.operation, detail]

def Parameter.toJson (p : Parameter) : Json := .ofEntries [
  ("name", .str p.name), ("type", .ofText? p.typeText), ("default", .ofText? p.fallback),
  ("is_variadic", .bool p.isVariadic)]

def FunctionRecord.toJson (f : FunctionRecord) : Json := .ofEntries [
  ("name", .str f.name), ("line_number", .nat f.line), ("end_line", .nat f.endLine),
  ("signature", .str f.signature), ("parameters", .arr (f.parameters.map Parameter.toJson)),
  ("return_type", .ofText? f.returnType), ("docstring", .ofText? f.docstring),
  ("is_async", .bool f.isAsync), ("is_method", .bool f.isMethod),
  ("parent_class", .ofText? f.parentClass), ("decorators", .strings f.decorators)]

def ClassRecord.toJson (c : ClassRecord) : Json := .ofEntries [
  ("name", .str c.name), ("line_number", .nat c.line), ("end_line", .nat c.endLine),
  ("parent_classes", .strings c.parents), ("docstring", .ofText? c.docstring),
  ("method_names", .strings c.methods), ("decorators", .strings c.decorators)]

/-- The form of a file without the time when it was changed. -/
def SourceFile.toJson (f : SourceFile) : Json := .ofEntries [
  ("relative_path", .str f.path), ("language", .str f.language), ("content_hash", .str f.hash),
  ("size_bytes", .nat f.size), ("parse_status", .str f.status.name),
  ("error_message", .ofText? f.message),
  ("functions", .arr (f.functions.map FunctionRecord.toJson)),
  ("classes", .arr (f.classes.map ClassRecord.toJson)), ("symbol_count", .nat f.symbolCount)]

def StoredFile.toJson (f : StoredFile) : Json := .ofEntries [
  ("relative_path", .str f.path), ("language", .str f.language), ("content_hash", .str f.hash),
  ("size_bytes", .nat f.size), ("parse_status", .str f.status.name),
  ("symbol_count", .nat f.symbols)]

/-- The entries of a project without its id. -/
def Project.jsonEntries (p : Project) : List (String × Json) := [
  ("name", .str p.name), ("root_path", .str p.rootPath), ("status", .str p.status.name),
  ("file_count", .nat p.fileCount), ("symbol_count", .nat p.symbolCount),
  ("indexed_at", .ofText? (p.indexedAt.map Timestamp.render)), ("config", .obj p.config)]

def Project.toJson (p : Project) : Json :=
  .ofEntries (("id", .str p.id.render) :: p.jsonEntries)

def ProjectDocument.toJson (d : ProjectDocument) : Json := .ofEntries [("project", .ofEntries [
  ("id", .str d.id), ("name", .str d.name), ("root_path", .str d.rootPath),
  ("indexed_at", .ofText? d.indexedAt),
  ("statistics", .ofEntries [("total_files", .nat d.totalFiles),
    ("total_symbols", .nat d.totalSymbols)]),
  ("status", .str d.status), ("config", .obj d.config)])]

mutual
def StructureEntry.toJson : StructureEntry → Json
  | .directory path children => .ofEntries [("path", .str path), ("type", .str "directory"),
      ("children", .arr (StructureEntry.toJsons children))]
  | .file f => .ofEntries [("path", .str f.path), ("type", .str "file"),
      ("language", .str f.language), ("size_bytes", .nat f.size), ("symbols", .nat f.symbols)]

def StructureEntry.toJsons : List StructureEntry → List Json
  | [] => []
  | e :: rest => e.toJson :: StructureEntry.toJsons rest
end

def HashDiff.toJson (d : HashDiff) : Json := .ofEntries [
  ("added", .strings d.added), ("modified", .strings d.modified), ("deleted", .strings d.deleted),
  ("to_reparse", .strings d.toReparse), ("to_purge", .strings d.toPurge),
  ("is_empty", .bool d.isEmpty), ("total", .nat d.total)]

def StoreConfig.toJson (c : StoreConfig) : Json := .ofEntries [
  ("url", .str c.url), ("collection", .str c.collection), ("vector_size", .nat c.vectorSize),
  ("timeout_secs", .nat c.timeoutSeconds), ("max_attempts", .nat c.maxAttempts),
  ("retry_base_delay_ms", .nat c.retryBaseDelay), ("api_key", .ofText? c.apiKey)]

/-- The form of the settings of an embedder. A key that is not set is left out. -/
def EmbeddingConfig.toJson (c : EmbeddingConfig) : Json := .ofEntries ([
  ("provider", .str c.provider), ("model", .str c.model), ("url", .str c.url),
  ("dimensions", .nat c.dimensions), ("cache_capacity", .nat c.cacheCapacity)] ++
  (c.apiKey.map fun k => ("api_key", Json.str k)).toList)

def Config.toJson (c : Config) : Json := .ofEntries [
  ("allowed_roots", .strings c.allowedRoots), ("output_dir", .ofText? c.outputDir),
  ("max_file_size", .nat c.maxFileSize), ("default_excludes", .strings c.defaultExcludes),
  ("store", c.store.toJson), ("embedding", c.embedding.toJson)]

end CodeAtlas
