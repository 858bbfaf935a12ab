import CodeAtlas.Embedding.Embedder
import CodeAtlas.Program
/-!
An embedder that keeps the vectors it has given last. Its work is a program whose requests are the
steps that others cannot interrupt, so several of them may share what is kept.
-/

namespace CodeAtlas

/-- Texts with their vectors, the one used last first. -/
structure EmbeddingCache where
  capacity : Nat
  entries : List (String × Embedding) := []

namespace EmbeddingCache

/-- A cache with room for one text at least. -/
def withCapacity (n : Nat) : EmbeddingCache := { capacity := max 1 n }

def size (c : EmbeddingCache) : Nat := c.entries.length

/-- The entries without that of a text. -/
def without (text : String) (entries : List (String × Embedding)) : List (String × Embedding) :=
  entries.filter (·.1 != text)

/-- Looks up a text, which is then the one used last. -/
def get (c : EmbeddingCache) (text : String) : Option Embedding × EmbeddingCache :=
  match c.entries.find? (·.1 == text) with
  | some entry => (some entry.2, { c with entries := entry :: without text c.entries })
  | none => (none, c)

/-- Looks up texts in turn. -/
def getAll (c : EmbeddingCache) : List String → List (Option Embedding) × EmbeddingCache
  | [] => ([], c)
  | text :: rest =>
    let (found, c) := c.get text
    let (others, c) := c.getAll rest
    (found :: others, c)

/-- Keeps a vector. If there is no room, the text that has not been used for longest goes. -/
def put (c : EmbeddingCache) (text : String) (vector : Embedding) : EmbeddingCache :=
  { c with entries := ((text, vector) :: without text c.entries).take c.capacity }

/-- Keeps vectors in turn. -/
def putAll (c : EmbeddingCache) (entries : List (String × Embedding)) : EmbeddingCache :=
  entries.foldl (fun c (text, vector) => c.put text vector) c

end EmbeddingCache

/-- A step of an embedder with a cache. -/
inductive CacheRequest where
  | getAll (texts : List String)
  | putAll (entries : List (String × Embedding))
  | embed (text : String)
  | embedAll (texts : List String)

namespace CacheRequest

@[reducible] def Answer : CacheRequest → Type
  | getAll _ => List (Option Embedding)
  | putAll _ => Unit
  | embed _ => Except Failure Embedding
  | embedAll _ => Except Failure (List Embedding)

/-- The answer of a cache and the embedder behind it. -/
def serve (e : Embedder) : Program.Service Answer EmbeddingCache
  | getAll texts, c =>
    let (found, c) := c.getAll texts
    (.ok found, c)
  | putAll entries, c => (.ok (), c.putAll entries)
  | embed text, c => (.ok (e.embed text), c)
  | embedAll texts, c => (.ok (e.embedAll texts), c)

end CacheRequest

namespace CachedEmbedder

/-- Work with a cache that may fail. -/
abbrev Work := ExceptT Failure (Program CacheRequest.Answer)

def step (r : CacheRequest) : Work r.Answer := ExceptT.lift (Program.perform r)

/-- A vector that is kept, or else a new one. -/
def embed (text : String) : Work Embedding := do
  match ← step (.getAll [text]) with
  | [some v] => return v
  | _ =>
    let v ← ExceptT.mk (Program.perform (CacheRequest.embed text))
    step (.putAll [(text, v)])
    return v

/-- The texts that are not found. -/
def missing : List String → List (Option Embedding) → List String
  | text :: texts, none :: found => text :: missing texts found
  | _ :: texts, some _ :: found => missing texts found
  | _, _ => []

/-- What is found, and new vectors in turn where nothing is. -/
def merge : List (Option Embedding) → List Embedding → List Embedding
  | some v :: found, new => v :: merge found new
  | none :: found, v :: new => v :: merge found new
  | none :: found, [] => merge found []
  | [], _ => []

/-- Vectors for texts, asking only for those that are not kept. There has to be one for each. -/
def embedAll (name : String) (texts : List String) : Work (List Embedding) := do
  let found ← step (.getAll texts)
  let rest := missing texts found
  if rest.isEmpty then return merge found []
  else
    let new ← ExceptT.mk (Program.perform (CacheRequest.embedAll rest))
    if new.length != rest.length then
      throw (.embedding (name ++ " returned " ++ toString new.length ++ " embeddings for " ++
        toString rest.length ++ " texts"))
    else
      step (.putAll (rest.zip new))
      return merge found new

end CachedEmbedder

end CodeAtlas
