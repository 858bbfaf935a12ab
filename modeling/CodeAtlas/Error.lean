/-!
Why an operation failed.
-/

namespace CodeAtlas

/-- What went wrong between the program and the system it runs on. -/
inductive IoCause where
  | notFound | permissionDenied | connectionRefused | connectionReset | connectionAborted
  | notConnected | brokenPipe | timedOut | invalidData | isADirectory | notADirectory | other
deriving DecidableEq, Repr

/-- Whether another attempt may succeed. -/
def IoCause.isTransient : IoCause → Bool
  | connectionRefused | connectionReset | connectionAborted | notConnected | brokenPipe
  | timedOut => true
  | _ => false

/-- A failure: its kind, and what is told about it. -/
inductive Failure where
  | validation (message : String)
  | parse (message : String)
  /-- The store could not be reached in time. -/
  | transient (message : String)
  | storage (message : String)
  | notFound (message : String)
  | embedding (message : String)
  | config (message : String)
  | yaml (message : String)
  | internal (message : String)
  | io (cause : IoCause) (message : String)
  | json (message : String)
deriving DecidableEq, Repr

namespace Failure

/-- The text of a failure: its kind and what is told about it. -/
def message : Failure → String
  | validation m => "Validation error: " ++ m
  | parse m => "Parse error: " ++ m
  | transient m => "Transient storage error: " ++ m
  | storage m => "Storage error: " ++ m
  | notFound m => "Not found: " ++ m
  | embedding m => "Embedding error: " ++ m
  | config m => "Configuration error: " ++ m
  | yaml m => "YAML error: " ++ m
  | internal m => "Internal error: " ++ m
  | io _ m => "IO error: " ++ m
  | json m => "JSON error: " ++ m

/-- Whether another attempt may succeed. -/
def isTransient : Failure → Bool
  | transient _ => true
  | io cause _ => cause.isTransient
  | _ => false

end Failure

end CodeAtlas
