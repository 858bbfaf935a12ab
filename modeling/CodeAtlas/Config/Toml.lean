import CodeAtlas.Config.Basic
import CodeAtlas.Error
import CodeAtlas.FileSystem.Change
import CodeAtlas.Toml.Printer
import CodeAtlas.Toml.Reader
/-!
Configurations as TOML texts. What a text does not set keeps its default, and what is not known is
passed over.
-/

namespace CodeAtlas

namespace Toml

/-- The values of named fields. A table has them under their names, and an array in their
order. -/
def fields? (names : List String) : Toml → Option (List (Option Toml))
  | table es => some (names.map (Keyed.get? · es))
  | arr items => some (names.mapIdx fun i _ => items[i]?)
  | datetime => some (names.map fun _ => none)
  | _ => none

def str? : Toml → Option String
  | str s => some s
  | _ => none

/-- A number from zero up to a bound, the bound left out. -/
def natBelow? (bound : Nat) : Toml → Option Nat
  | int n => if 0 ≤ n && n < bound then some n.toNat else none
  | _ => none

def nat? : Toml → Option Nat := natBelow? (Nat.pow 2 64)

def strs? : Toml → Option (List String)
  | arr items => items.mapM str?
  | _ => none

/-- The value of a field, or its default if it is not set; none if it is set to something else
than such a value. -/
def field? {α : Type} (read : Toml → Option α) (fallback : α) : Option Toml → Option α
  | none => some fallback
  | some v => read v

end Toml

namespace StoreConfig

open Toml in
def ofToml? (t : Toml) : Option StoreConfig := do
  let d : StoreConfig := {}
  match ← fields? ["url", "collection", "vector_size", "timeout_secs", "max_attempts",
      "retry_base_delay_ms", "api_key"] t with
  | [url, collection, vectorSize, timeout, attempts, delay, key] =>
    some {
      url := ← field? str? d.url url
      collection := ← field? str? d.collection collection
      vectorSize := ← field? nat? d.vectorSize vectorSize
      timeoutSeconds := ← field? nat? d.timeoutSeconds timeout
      maxAttempts := ← field? (natBelow? (Nat.pow 2 32)) d.maxAttempts attempts
      retryBaseDelay := ← field? nat? d.retryBaseDelay delay
      apiKey := ← field? (fun v => (str? v).map some) d.apiKey key }
  | _ => none

def toToml (c : StoreConfig) : Toml :=
  .table ([("url", .str c.url), ("collection", .str c.collection),
    ("vector_size", .int c.vectorSize), ("timeout_secs", .int c.timeoutSeconds),
    ("max_attempts", .int c.maxAttempts), ("retry_base_delay_ms", .int c.retryBaseDelay)] ++
    (c.apiKey.map fun key => ("api_key", Toml.str key)).toList)

end StoreConfig

namespace EmbeddingConfig

open Toml in
def ofToml? (t : Toml) : Option EmbeddingConfig := do
  let d : EmbeddingConfig := {}
  match ← fields? ["provider", "model", "url", "dimensions", "cache_capacity", "api_key"] t with
  | [provider, model, url, dimensions, capacity, key] =>
    some {
      provider := ← field? str? d.provider provider
      model := ← field? str? d.model model
      url := ← field? str? d.url url
      dimensions := ← field? nat? d.dimensions dimensions
      cacheCapacity := ← field? nat? d.cacheCapacity capacity
      apiKey := ← field? (fun v => (str? v).map some) d.apiKey key }
  | _ => none

def toToml (c : EmbeddingConfig) : Toml :=
  .table ([("provider", .str c.provider), ("model", .str c.model), ("url", .str c.url),
    ("dimensions", .int c.dimensions), ("cache_capacity", .int c.cacheCapacity)] ++
    (c.apiKey.map fun key => ("api_key", Toml.str key)).toList)

end EmbeddingConfig

namespace Config

open Toml in
def ofToml? (t : Toml) : Option Config := do
  let d : Config := {}
  match ← fields? ["allowed_roots", "output_dir", "max_file_size", "default_excludes", "store",
      "embedding"] t with
  | [roots, outputDir, maxFileSize, excludes, store, embedding] =>
    some {
      allowedRoots := ← field? strs? d.allowedRoots roots
      outputDir := ← field? (fun v => (str? v).map some) d.outputDir outputDir
      maxFileSize := ← field? nat? d.maxFileSize maxFileSize
      defaultExcludes := ← field? strs? d.defaultExcludes excludes
      store := ← field? StoreConfig.ofToml? d.store store
      embedding := ← field? EmbeddingConfig.ofToml? d.embedding embedding }
  | _ => none

/-- The fields that are set, in the order in which they are written. -/
def toToml (c : Config) : List (String × Toml) :=
  [("allowed_roots", Toml.arr (c.allowedRoots.map .str))] ++
    (c.outputDir.map fun dir => ("output_dir", Toml.str dir)).toList ++
    [("max_file_size", .int c.maxFileSize),
      ("default_excludes", .arr (c.defaultExcludes.map .str)),
      ("store", c.store.toToml), ("embedding", c.embedding.toToml)]

/-- The configuration of a text. -/
def ofText (text : String) : Except Failure Config :=
  match (Toml.parse? text).bind ofToml? with
  | some c => .ok c
  | none => .error (.config "invalid TOML")

/-- The text of a configuration. There is none if a number does not fit into 64 bits with a
sign. -/
def toText (c : Config) : Except Failure String :=
  match Toml.render? c.toToml with
  | some text => .ok text
  | none => .error (.config "number out of range")

end Config

namespace Config

/-- Reads a configuration file. -/
def load (fs : FileSystem) (path : String) : Except Failure Config :=
  match fs.readText path with
  | .ok text => ofText text
  | .error e => .error e.failure

/-- Reads a configuration file if it is there and valid; otherwise everything has its
default. -/
def loadOrDefault (fs : FileSystem) (path : String) : Config := (load fs path).toOption.getD {}

/-- Writes a configuration file and the directories above it. -/
def save (c : Config) (fs : FileSystem) (path : String) : Except Failure FileSystem := do
  let text ← c.toText
  let written : Except DiskError FileSystem := do
    let fs ← match Path.parent? path with
      | some dir => fs.makeDirs dir
      | none => .ok fs
    fs.write path text.toUTF8
  written.mapError DiskError.failure

end Config

end CodeAtlas
