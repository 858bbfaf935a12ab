import CodeAtlas.Config.Basic
import CodeAtlas.Request
import CodeAtlas.SymbolStore.Payload
/-!
A store of projects, files and symbols in one collection of vectors: setting the collection up,
and reading it page by page.
-/

namespace CodeAtlas

/-- How a store works. What it remembers about its collection is asked of the surroundings. -/
structure SymbolStore where
  collection : String
  vectorSize : Nat
  retry : RetryPolicy
  hasEmbedder : Bool := false
  /-- More pages than this are not read; no collection has so many. -/
  pageLimit : Nat := Nat.pow 2 64

namespace SymbolStore

def ofConfig (c : StoreConfig) : SymbolStore where
  collection := c.collection
  vectorSize := c.vectorSize
  retry := .ofConfig c

/-- How many points are written with one call. -/
def batchSize : Nat := 64

/-- How many points a page has. -/
def pageSize : Nat := 256

/-- The keys of payloads that have an index. -/
def indexedKeys : List String :=
  ["project_id", "file_path", "symbol_type", "symbol_name", "language", "content_hash"]

/-- A call that is attempted again as the policy of the store says. -/
def call (s : SymbolStore) (c : ClientCall) : Attempt c.Answer :=
  ExceptT.mk (s.retry.retry (fun nanos => ask (.pause nanos)) (ask (.client c)))

/-- The vector of a point that has no meaning. -/
def placeholder (s : SymbolStore) : Embedding := List.replicate s.vectorSize .zero

/-! ## Setting up -/

def shape (s : SymbolStore) : CollectionShape := ⟨s.collection, s.vectorSize, .cosine⟩

/-- Makes the collection unless it is there. If that fails and the collection is there after all,
somebody else has made it. -/
def createIfAbsent (s : SymbolStore) : Attempt Unit := do
  if ← s.call (.hasCollection s.collection) then pure ()
  else
    match ← (s.call (.create s.shape)).outcome with
    | .ok () => pure ()
    | .error e =>
      match ← (s.call (.hasCollection s.collection)).outcome with
      | .ok true => pure ()
      | _ => throw e

/-- Declares indexes and tells whether all of them are there. They only make the work faster, so a
failure is no failure of the store. -/
def createIndexes (s : SymbolStore) : List String → Plan Bool
  | [] => return true
  | key :: rest => do
    let result ← ask (.client (.createIndex s.collection key))
    let others ← createIndexes s rest
    return result.toBool && others

/-- Sets the collection up, and remembers what has been done. An index that could not be declared is
declared the next time. -/
def ensureCollection (s : SymbolStore) : Attempt Unit := do
  unless ← ask (.hasReached .ready) do
    s.createIfAbsent
    ask (.reach .ready)
  unless ← ask (.hasReached .indexed) do
    if ← s.createIndexes indexedKeys then ask (.reach .indexed)

/-! ## Reading -/

/-- What a missing collection reads as. -/
def orIfMissing {α : Type} (fallback : α) (a : Attempt α) : Attempt α := do
  match ← a.outcome with
  | .ok x => pure x
  | .error (.notFound _) => pure fallback
  | .error e => throw e

/-- The points that a filter accepts, from a page on. A failure on any page is a failure. -/
def scrollFrom (s : SymbolStore) (filter : Filter) : Nat → Option Json → Attempt (List Point)
  | 0, _ => throw (.internal "too many pages")
  | pages + 1, start => do
    let page ← s.call (.scroll s.collection filter pageSize start)
    match page.next with
    | some next => return page.points ++ (← scrollFrom s filter pages (some next))
    | none => return page.points

/-- All points that a filter accepts. Only before the first page a missing collection reads as
empty. -/
def scrollAll (s : SymbolStore) (filter : Filter) : Attempt (List Point) := do
  let page ← orIfMissing ⟨[], none⟩ (s.call (.scroll s.collection filter pageSize none))
  match page.next with
  | some next => return page.points ++ (← s.scrollFrom filter s.pageLimit (some next))
  | none => return page.points

end SymbolStore

end CodeAtlas
