import CodeAtlas.Collection.Filter
import CodeAtlas.Error
/-!
The calls that a client of a vector store answers.
-/

namespace CodeAtlas

/-- A call to a vector store. -/
inductive ClientCall where
  | hasCollection (collection : String)
  | create (shape : CollectionShape)
  /-- Declares an index on a key of the payloads. -/
  | createIndex (collection key : String)
  /-- Writes points, each instead of the point with its id. -/
  | upsert (collection : String) (points : List Point)
  | retrieve (collection : String) (ids : List String)
  /-- Asks for a page of the points that a filter accepts. -/
  | scroll (collection : String) (filter : Filter) (limit : Nat) (start : Option Json)
  /-- Deletes the points that a filter accepts. -/
  | delete (collection : String) (filter : Filter)
  | search (collection : String) (vector : Embedding) (filter : Filter) (limit : Nat)

namespace ClientCall

/-- What a call gives if it succeeds. -/
@[reducible] def Answer : ClientCall → Type
  | hasCollection _ => Bool
  | create _ | createIndex _ _ | upsert _ _ | delete _ _ => Unit
  | retrieve _ _ => List Point
  | scroll _ _ _ _ => Page
  | search _ _ _ _ => List Hit

/-- The name of what a call does. -/
def operation : ClientCall → String
  | hasCollection _ => "collection exists"
  | create _ => "create collection"
  | createIndex _ _ => "create payload index"
  | upsert _ _ => "upsert"
  | retrieve _ _ => "retrieve"
  | scroll _ _ _ _ => "scroll"
  | delete _ _ => "delete"
  | search _ _ _ _ => "search"

/-- Whether a call may change a collection. -/
def isWrite : ClientCall → Bool
  | create _ | createIndex _ _ | upsert _ _ | delete _ _ => true
  | _ => false

end ClientCall

/-- A call either fails or gives its answer. -/
abbrev ClientCall.Result (c : ClientCall) : Type := Except Failure c.Answer

/-- What is told when nothing would remain of a collection. -/
def Failure.emptyFilter : Failure := .validation "Refusing to delete with an empty filter"

end CodeAtlas
