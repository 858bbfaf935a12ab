import CodeAtlas.FileSystem.Path
import CodeAtlas.Retry
import CodeAtlas.Text.LowerCase
/-!
What the program is told about its surroundings: which directories it may index, where it writes,
where its store is, and how texts are embedded.
-/

namespace CodeAtlas

/-- How the vector store is reached. -/
structure StoreConfig where
  url : String := "http://localhost:6333"
  collection : String := "project_architecture"
  vectorSize : Nat := 1024
  timeoutSeconds : Nat := 30
  maxAttempts : Nat := 3
  /-- In thousandths of a second. -/
  retryBaseDelay : Nat := 500
  apiKey : Option String := none
deriving DecidableEq, Repr

/-- Who embeds texts. -/
structure EmbeddingConfig where
  provider : String := "none"
  model : String := ""
  url : String := ""
  dimensions : Nat := 1024
  cacheCapacity : Nat := 10000
  apiKey : Option String := none
deriving DecidableEq, Repr

structure Config where
  /-- The directories in which projects may be indexed. -/
  allowedRoots : List String := ["/opt/projects"]
  /-- Where output is written, instead of into the project. -/
  outputDir : Option String := none
  /-- Larger files are left out. -/
  maxFileSize : Nat := 1048576
  defaultExcludes : List String := [
    ".git/**", "node_modules/**", "__pycache__/**", "*.pyc", ".venv/**", "venv/**", "dist/**",
    "build/**", ".agents/**"]
  store : StoreConfig := {}
  embedding : EmbeddingConfig := {}
deriving DecidableEq, Repr

namespace RetryPolicy

/-- The policy of a configuration. -/
def ofConfig (c : StoreConfig) : RetryPolicy :=
  { maxAttempts := c.maxAttempts, baseDelay := c.retryBaseDelay * 1000000 }

end RetryPolicy

namespace Config

/-- Where the documents about a project are written. -/
def outputDirFor (c : Config) (root name : String) : String :=
  match c.outputDir with
  | some base => Path.join base name
  | none => Path.join (Path.join root ".agents") "architecture"

/-- Where the configuration is kept below a home directory. -/
def homePath (home : String) : String := Path.join (Path.join home ".archindex") "config.toml"

/-- The texts between commas, without blanks around them and without empty ones. -/
def splitRoots (s : String) : List String :=
  ((Text.splitOn (· == ',') s).map Text.trim).filter (· != "")

/-- The variables of the environment that have a meaning. -/
def environmentKeys : List String := [
  "ALLOWED_INDEX_ROOTS", "INDEXER_OUTPUT_DIR", "QDRANT_URL", "QDRANT_API_KEY",
  "ARCHINDEX_EMBED_PROVIDER", "ARCHINDEX_EMBED_MODEL", "ARCHINDEX_EMBED_URL",
  "ARCHINDEX_EMBED_API_KEY", "OPENAI_API_KEY"]

/-- The configuration with the settings of the environment put over it. A variable with a blank
value counts as unset. -/
def withEnvironment (c : Config) (lookUp : String → Option String) : Config :=
  let get (key : String) : Option String := (lookUp key).filter fun v => !Text.isAllBlank v
  { c with
    allowedRoots :=
      match (get "ALLOWED_INDEX_ROOTS").map splitRoots with
      | none | some [] => c.allowedRoots
      | some roots => roots
    outputDir := get "INDEXER_OUTPUT_DIR" <|> c.outputDir
    store := { c.store with
      url := (get "QDRANT_URL").getD c.store.url
      apiKey := get "QDRANT_API_KEY" <|> c.store.apiKey }
    embedding := { c.embedding with
      provider := ((get "ARCHINDEX_EMBED_PROVIDER").map Text.lower).getD c.embedding.provider
      model := (get "ARCHINDEX_EMBED_MODEL").getD c.embedding.model
      url := (get "ARCHINDEX_EMBED_URL").getD c.embedding.url
      apiKey := get "ARCHINDEX_EMBED_API_KEY" <|> get "OPENAI_API_KEY" <|> c.embedding.apiKey } }

end Config

end CodeAtlas
