import CodeAtlas.Json.Basic
import CodeAtlas.Status
import CodeAtlas.Timestamp
import CodeAtlas.Uuid
/-!
Projects: one for each indexed root.
-/

namespace CodeAtlas

/-- An indexed codebase. Its configuration is a map from names to JSON values. -/
structure Project where
  id : Uuid
  name : String
  rootPath : String
  status : ProjectStatus := .indexing
  fileCount : Nat := 0
  symbolCount : Nat := 0
  indexedAt : Option Timestamp := none
  config : List (String × Json) := []

namespace Project

/-- Where the configuration keeps the exclude patterns. -/
def excludeKey : String := "exclude_patterns"

/-- The exclude patterns with which the project was indexed. -/
def excludePatterns (p : Project) : List String :=
  ((Keyed.get? excludeKey p.config).map Json.strs).getD []

def setExcludePatterns (p : Project) (patterns : List String) : Project :=
  { p with config := Keyed.insert excludeKey (.strings patterns) p.config }

end Project

end CodeAtlas
