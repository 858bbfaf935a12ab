import CodeAtlas.Collection.Call
import CodeAtlas.Config.Basic
import CodeAtlas.Remote.Address
/-!
A vector store behind an address, as far as it can be known without an answer: which calls need
none, which are refused, and which fail for good or for the time being.
-/

namespace CodeAtlas

/-- How a vector store is reached. -/
structure RemoteStore where
  address : String
  apiKey : Option String := none
deriving DecidableEq, Repr

namespace RemoteStore

def ofConfig (c : StoreConfig) : RemoteStore := ⟨Remote.trimAddress c.url, c.apiKey⟩

/-- Why a request cannot be sent. -/
def unsendable : String := "the request cannot be sent"

/-- Why a request that has been sent fails. -/
def unanswered : String := "nothing answers"

/-- The failure of a request about a collection. -/
def requestFailure (s : RemoteStore) (operation collection : String) : Failure :=
  if Remote.isAddress (s.address ++ "/collections/" ++ collection) &&
      s.apiKey.all Remote.isHeaderText then
    .transient (operation ++ ": " ++ unanswered)
  else .storage (operation ++ ": " ++ unsendable)

/-- What becomes of a call when nothing answers. -/
def answer (s : RemoteStore) (call : ClientCall) : call.Result :=
  match call with
  | .upsert _ [] => .ok ()
  | .retrieve _ [] => .ok []
  | .delete _ ⟨[]⟩ => .error .emptyFilter
  | .hasCollection name => .error (s.requestFailure "collection exists" name)
  | .create shape => .error (s.requestFailure "create collection" shape.name)
  | .createIndex name _ => .error (s.requestFailure "create payload index" name)
  | .upsert name _ => .error (s.requestFailure "upsert" name)
  | .retrieve name _ => .error (s.requestFailure "retrieve" name)
  | .scroll name _ _ _ => .error (s.requestFailure "scroll" name)
  | .delete name _ => .error (s.requestFailure "delete" name)
  | .search name _ _ _ => .error (s.requestFailure "search" name)

end RemoteStore

end CodeAtlas
