import CodeAtlas.Indexing.Full
import CodeAtlas.Indexing.Update
import CodeAtlas.Tool.Call
/-!
What calls of tools do, and the payloads that tell what came of them. A payload has a status,
`success` or `error`, and with an error a text about it.
-/

namespace CodeAtlas

namespace ToolPayload

/-- The payload of a call that has succeeded. -/
def success (entries : List (String × Json)) : Json :=
  .ofEntries (entries ++ [("status", .str "success")])

/-- The payload of a call that has failed. -/
def failed (message : String) : Json :=
  .ofEntries [("status", .str "error"), ("error", .str message)]

/-- What a caller is told about a failure. What is wrong with a call, or not found, goes without
its kind. -/
def explain : Failure → String
  | .validation m | .notFound m => m
  | e => e.message

/-- What came of indexing a project. -/
def ofIndex (o : IndexOutcome) : Json := success [
  ("project_id", .str o.project.render), ("file_count", .nat o.fileCount),
  ("files_indexed", .nat o.filesParsed), ("symbol_count", .nat o.symbolCount),
  ("errors", .strings o.errors), ("output_dir", .str o.outputDir)]

/-- What came of an update: how many files have changed, and which. -/
def ofUpdate (o : UpdateOutcome) : Json := success [
  ("project_id", .str o.project.render), ("added", .nat o.diff.added.length),
  ("modified", .nat o.diff.modified.length), ("deleted", .nat o.diff.deleted.length),
  ("files_processed", .nat o.filesParsed), ("file_count", .nat o.fileCount),
  ("symbol_count", .nat o.symbolCount),
  ("changes", .ofEntries [("added", .strings o.diff.added),
    ("modified", .strings o.diff.modified), ("deleted", .strings o.diff.deleted)]),
  ("output_dir", .str o.outputDir)]

/-- A hit: its id and score with what is known about the point. -/
def ofHit (h : Hit) : Json :=
  let score := h.score.toBinary64
  .ofEntries (h.payload ++
    [("id", .str h.id), ("score", if score.isFinite then .float score else .null)])

def ofSearch (query : String) (hits : List Hit) : Json := success [
  ("query", .str query), ("count", .nat hits.length), ("results", .arr (hits.map ofHit))]

def ofProject (p : Project) : Json := .ofEntries [
  ("project_id", .str p.id.render), ("name", .str p.name), ("root_path", .str p.rootPath),
  ("status", .str p.status.name), ("file_count", .nat p.fileCount),
  ("symbol_count", .nat p.symbolCount),
  ("indexed_at", .ofOption (fun t => .str (Timestamp.renderOffset t)) p.indexedAt)]

def ofProjects (ps : List Project) : Json := success [
  ("count", .nat ps.length), ("projects", .arr (ps.map ofProject))]

def ofDeleted (id : Uuid) : Json := success [
  ("message", .str ("Project " ++ id.render ++ " deleted successfully")),
  ("project_id", .str id.render)]

/-- Whether a payload tells of an error. -/
def isError (payload : Json) : Bool := payload.getStr? "status" == some "error"

end ToolPayload

namespace ToolCall

/-- Does what is called for and tells about it. -/
def run (x : Indexer) : ToolCall → Attempt Json
  | index path patterns => return ToolPayload.ofIndex (← x.indexProject path patterns)
  | update project force => return ToolPayload.ofUpdate (← x.updateProject project force)
  | search query project limit => do
    return ToolPayload.ofSearch query (← ExceptT.lift (x.store.search query project limit))
  | list => return ToolPayload.ofProjects (← ExceptT.lift x.store.listProjects)
  | delete project => do
    if ← x.store.deleteProject project then return ToolPayload.ofDeleted project
    else throw (.notFound ("Project not found: " ++ project.render))

end ToolCall

namespace Indexer

/-- Calls the tool of a name. Whatever fails is told in the payload. -/
def callTool (x : Indexer) (name : String) (args : Json) : Plan Json :=
  match ToolCall.parse name args with
  | .error defect => return ToolPayload.failed defect.message
  | .ok call => do
    match ← (call.run x).run with
    | .ok payload => return payload
    | .error e => return ToolPayload.failed (ToolPayload.explain e)

end Indexer

/-- The payload of a call, be it one in which the surroundings broke down. -/
def ToolPayload.settle : Except Crash Json → Json
  | .ok payload => payload
  | .error crash => failed ("Internal error: " ++ crash.message)

end CodeAtlas
