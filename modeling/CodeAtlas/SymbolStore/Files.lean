import CodeAtlas.SymbolStore.Projects
/-!
Files and symbols in a store: one point for each file, and one for each of its functions and
classes.
-/

namespace CodeAtlas.SymbolStore

/-! ## Writing -/

/-- A point to be written that has no vector yet, and the text from which an embedder makes one. -/
structure Draft where
  id : String
  payload : Payload
  text : Option String

/-- The points of a file, which itself has no text. -/
def drafts (project fileId : Uuid) (f : FiledSource) : List Draft :=
  let symbols :=
    f.file.functions.map (fun r => (Payload.ofFunction project f.file r,
      Payload.functionText f.file r)) ++
    f.file.classes.map fun r => (Payload.ofClass project f.file r, Payload.classText f.file r)
  ⟨fileId.render, .ofFile project f.file, none⟩ ::
    List.zipWith (fun id (payload, text) => ⟨id.render, payload, some text⟩) f.ids symbols

/-- The points of files, each under a fresh id. -/
def draftAll (project : Uuid) : List FiledSource → Plan (List Draft)
  | [] => return []
  | f :: rest => do
    let id ← ask .freshId
    return drafts project id f ++ (← draftAll project rest)

/-- A vector of the right size, or the placeholder. -/
def fitting (s : SymbolStore) (v : Option Embedding) : Embedding :=
  (v.filter (·.length == s.vectorSize)).getD s.placeholder

/-- Points with their vectors. Vectors are given to those points in turn that have a text. -/
def fill (s : SymbolStore) : List Draft → List Embedding → List Point
  | [], _ => []
  | d :: rest, vectors =>
    match d.text, vectors with
    | some _, v :: vectors => ⟨d.id, s.fitting (some v), d.payload⟩ :: fill s rest vectors
    | _, vectors => ⟨d.id, s.placeholder, d.payload⟩ :: fill s rest vectors

/-- The vectors for the texts of a batch: none unless the embedder gives one for each. -/
def embedTexts (s : SymbolStore) (texts : List String) : Plan (List Embedding) := do
  if !s.hasEmbedder || texts.isEmpty then return []
  else
    match ← ask (.embedAll texts) with
    | .ok vectors => return if vectors.length == texts.length then vectors else []
    | .error _ => return []

/-- The points of a batch. -/
def vectorize (s : SymbolStore) (batch : List Draft) : Plan (List Point) := do
  return s.fill batch (← s.embedTexts (batch.filterMap (·.text)))

/-- The items in batches of a size. -/
def batches {α : Type} (size : Nat) (items : List α) : List (List α) :=
  (List.range ((items.length + size - 1) / size)).map fun i => (items.drop (i * size)).take size

/-- Writes batches in turn, up to the first that fails. -/
def writeBatches (s : SymbolStore) : List (List Draft) → Attempt Unit
  | [] => pure ()
  | batch :: rest => do
    let points ← s.vectorize batch
    s.call (.upsert s.collection points)
    writeBatches s rest

/-- Writes files and their symbols and tells the number of points. What was known of the files is
not deleted. -/
def storeFiles (s : SymbolStore) (project : Uuid) (files : List FiledSource) : Attempt Nat := do
  if files.isEmpty then return 0
  else
    s.ensureCollection
    let drafts ← draftAll project files
    s.writeBatches (batches batchSize drafts)
    return drafts.length

/-- Deletes what is known of files and tells the number of paths. -/
def deleteFiles (s : SymbolStore) (project : Uuid) (paths : List String) : Attempt Nat := do
  if paths.isEmpty then return 0
  else
    s.call (.delete s.collection
      ⟨[.text "project_id" project.render, .oneOfTexts "file_path" paths]⟩)
    return paths.length

/-! ## Reading -/

/-- The files of a project in the order of their paths. -/
def loadFiles (s : SymbolStore) (project : Uuid) : Attempt (List StoredFile) := do
  let points ← s.scrollAll ⟨[.text "type" "file", .text "project_id" project.render]⟩
  return Sorting.sort (fun a b => a.path ≤ b.path) (points.filterMap (Payload.toFile? ·.payload))

def listFiles (s : SymbolStore) (project : Uuid) : Plan (List StoredFile) :=
  orDefault [] (s.loadFiles project)

/-- The hashes of the files of a project by their paths. -/
def hashes (files : List StoredFile) : List (String × String) :=
  Keyed.ofList (files.map fun f => (f.path, f.hash))

def getHashes (s : SymbolStore) (project : Uuid) : Plan (List (String × String)) := do
  return hashes (← s.listFiles project)

/-! ## Searching -/

/-- The vector of a question: the placeholder if there is no embedder or it fails. -/
def embedQuery (s : SymbolStore) (query : String) : Plan Embedding := do
  if !s.hasEmbedder then return s.placeholder
  else return s.fitting (← ask (.embed query)).toOption

/-- Which points a search may find: files and symbols, of one project if it is told. -/
def searchFilter (project : Option Uuid) : Filter :=
  ⟨.oneOfTexts "type" ["file", "symbol"] ::
    (project.map fun id => Condition.text "project_id" id.render).toList⟩

/-- The files and symbols that come nearest to a question. -/
def search (s : SymbolStore) (query : String) (project : Option Uuid) (limit : Nat) :
    Plan (List Hit) := do
  let vector ← s.embedQuery query
  match ← ask (.client (.search s.collection vector (searchFilter project) limit)) with
  | .ok hits => return hits
  | .error _ => return []

end CodeAtlas.SymbolStore
