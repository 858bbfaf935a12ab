import CodeAtlas.Collection.Point
import CodeAtlas.Config.Basic
import CodeAtlas.Error
import CodeAtlas.Remote.Address
/-!
Embedders: who gives vectors for texts, and how one is chosen by a configuration.
-/

namespace CodeAtlas

/-- Gives vectors for texts, one or many at a time. -/
structure Embedder where
  name : String
  dimensions : Nat
  embed : String → Except Failure Embedding
  embedAll : List String → Except Failure (List Embedding)

/-- The services that embed texts. -/
inductive EmbeddingService where
  | ollama
  | openAI (apiKey : String)
deriving DecidableEq, Repr

/-- A service, where it is, and what it is asked for. -/
structure RemoteEmbedder where
  service : EmbeddingService
  address : String
  model : String
  dimensions : Nat
deriving DecidableEq, Repr

namespace RemoteEmbedder

/-- The dimensions of the vectors, if nothing else is told. -/
def defaultDimensions : Nat := 1024

def ollama (address : String := "http://localhost:11434") (model : String := "mxbai-embed-large")
    (dimensions : Nat := defaultDimensions) : RemoteEmbedder :=
  ⟨.ollama, Remote.trimAddress address, model, dimensions⟩

def openAI (apiKey : String) (address : String := "https://api.openai.com/v1")
    (model : String := "text-embedding-3-small") (dimensions : Nat := defaultDimensions) :
    RemoteEmbedder :=
  ⟨.openAI apiKey, Remote.trimAddress address, model, dimensions⟩

/-- The name under which a service is chosen. -/
def name (e : RemoteEmbedder) : String :=
  match e.service with
  | .ollama => "ollama"
  | .openAI _ => "openai"

/-- The failure of a request. -/
def requestFailure (e : RemoteEmbedder) : Failure :=
  .embedding (match e.service with
    | .ollama => "Ollama request failed: nothing answers"
    | .openAI _ => "OpenAI request failed: nothing answers")

/-- The embedder when nothing answers: it has vectors for no texts at all. -/
def unanswered (e : RemoteEmbedder) : Embedder where
  name := e.name
  dimensions := e.dimensions
  embed _ := .error e.requestFailure
  embedAll texts := if texts.isEmpty then .ok [] else .error e.requestFailure

/-- The value that is told, or a default. -/
def told (value default : String) : String := if value == "" then default else value

/-- How many texts are kept with their vectors, if nothing else is told. -/
def defaultCapacity : Nat := 10000

/-- The embedder of a configuration, if there is one, and how many texts are kept with their
vectors. -/
def ofConfig (c : EmbeddingConfig) : Except Failure (Option (RemoteEmbedder × Nat)) :=
  let dimensions := if c.dimensions == 0 then defaultDimensions else c.dimensions
  let capacity := if c.cacheCapacity == 0 then defaultCapacity else c.cacheCapacity
  match Text.lower (Text.trim c.provider) with
  | "none" | "" => .ok none
  | "ollama" =>
    .ok (some (ollama (told c.url "http://localhost:11434") (told c.model "mxbai-embed-large")
      dimensions, capacity))
  | "openai" =>
    match c.apiKey with
    | none => .error (.config
        "ARCHINDEX_EMBED_API_KEY or OPENAI_API_KEY required for OpenAI embeddings")
    | some key =>
      .ok (some (openAI key (told c.url "https://api.openai.com/v1")
        (told c.model "text-embedding-3-small") dimensions, capacity))
  | other => .error (.config ("Unknown embedding provider: '" ++ other ++
      "'. Use 'none', 'ollama', or 'openai'."))

end RemoteEmbedder

end CodeAtlas
