import CodeAtlas.Collection.Call
import CodeAtlas.Sorting
/-!
A vector store in memory. Each call gives its answer and the collections after it, and a call that
fails leaves the collections as they were.
-/

namespace CodeAtlas

/-- A collection: its shape, its points by their ids, and the keys with an index. -/
structure Collection where
  shape : CollectionShape
  points : List (String × Point) := []
  indexes : List String := []

/-- Collections by their names. -/
abbrev Collections := List (String × Collection)

namespace Collection

/-- Writes points in turn. -/
def upsert (c : Collection) (points : List Point) : Collection :=
  { c with points := points.foldl (fun acc p => Keyed.insert p.id p acc) c.points }

/-- The points that a filter accepts, in the order of their ids. -/
def matching (c : Collection) (filter : Filter) : List Point :=
  (c.points.map (·.2)).filter (filter.accepts ·.payload)

def delete (c : Collection) (filter : Filter) : Collection :=
  { c with points := c.points.filter fun (_, p) => !filter.accepts p.payload }

def createIndex (c : Collection) (key : String) : Collection :=
  { c with indexes := Keyed.sortedSet (key :: c.indexes) }

/-- The next points that a filter accepts, from an id on. A page has at least one point, if there
is one. -/
def scroll (c : Collection) (filter : Filter) (limit : Nat) (start : Option Json) : Page :=
  let start := (start.bind Json.str?).getD ""
  let found := ((c.points.filter fun (id, _) => !(id < start)).map (·.2)).filter
    (filter.accepts ·.payload)
  let size := max limit 1
  ⟨found.take size, ((found.drop size).head?).map fun p => .str p.id⟩

/-- Higher scores come first, and of equal ones the smaller id. -/
def ranksBefore (a b : Hit) : Bool :=
  b.score.rank < a.score.rank || (b.score.rank == a.score.rank && !(b.id < a.id))

/-- The best hits for a query. -/
def search (c : Collection) (query : Embedding) (filter : Filter) (limit : Nat) : List Hit :=
  let hits := (c.matching filter).map fun p =>
    ⟨p.id, c.shape.distance.score query p.vector, p.payload⟩
  (Sorting.sort ranksBefore hits).take limit

end Collection

namespace Collections

def missing (collection : String) : Failure :=
  .notFound ("Collection \x60" ++ collection ++ "\x60 doesn't exist")

/-- A collection that has to be there. -/
def require (cs : Collections) (collection : String) : Except Failure Collection :=
  match Keyed.get? collection cs with
  | some c => .ok c
  | none => .error (missing collection)

/-- Reads from a collection. -/
def reading {α : Type} (cs : Collections) (collection : String) (f : Collection → α) :
    Except Failure α × Collections :=
  ((cs.require collection).map f, cs)

/-- Changes a collection. -/
def changing (cs : Collections) (collection : String)
    (f : Collection → Except Failure Collection) : Except Failure Unit × Collections :=
  match (cs.require collection).bind f with
  | .ok c => (.ok (), Keyed.insert collection c cs)
  | .error e => (.error e, cs)

/-- Refuses points whose vectors do not have the size of the collection. -/
def checkSizes (c : Collection) (points : List Point) : Except Failure Unit :=
  match points.find? (·.vector.length != c.shape.vectorSize) with
  | none => .ok ()
  | some p => .error (.storage ("Wrong vector dimension: expected " ++
      toString c.shape.vectorSize ++ ", got " ++ toString p.vector.length))

/-- The answer to a call, and the collections after it. -/
def answer (cs : Collections) : (call : ClientCall) → call.Result × Collections
  | .hasCollection name => (.ok (Keyed.contains name cs), cs)
  | .create shape =>
    if Keyed.contains shape.name cs then
      (.error (.storage ("Collection \x60" ++ shape.name ++ "\x60 already exists")), cs)
    else (.ok (), Keyed.insert shape.name { shape } cs)
  | .createIndex name key => cs.changing name fun c => .ok (c.createIndex key)
  | .upsert name points => cs.changing name fun c =>
    (checkSizes c points).map fun _ => c.upsert points
  | .retrieve name ids => cs.reading name fun c => ids.filterMap (Keyed.get? · c.points)
  | .scroll name filter limit start => cs.reading name (·.scroll filter limit start)
  | .delete name filter =>
    if filter.isEmpty then (.error .emptyFilter, cs)
    else cs.changing name fun c => .ok (c.delete filter)
  | .search name vector filter limit => cs.reading name (·.search vector filter limit)

/-- The number of points of a collection, zero if there is none. -/
def count (cs : Collections) (collection : String) : Nat :=
  ((Keyed.get? collection cs).map (·.points.length)).getD 0

end Collections

/-- A store in memory whose next calls may be made to fail: any calls, or those of an operation. -/
structure MemoryStore where
  collections : Collections := []
  failing : Nat := 0
  failingOn : List (String × Nat) := []

namespace MemoryStore

/-- Makes the next calls fail, whatever they are. -/
def failNext (s : MemoryStore) (n : Nat) : MemoryStore := { s with failing := n }

/-- Makes the next calls of an operation fail. -/
def failNextOn (s : MemoryStore) (operation : String) (n : Nat) : MemoryStore :=
  { s with failingOn := Keyed.insert operation n s.failingOn }

/-- Whether the next call of an operation fails, and the store with that failure used up. -/
def takeFailure (s : MemoryStore) (operation : String) : Bool × MemoryStore :=
  match Keyed.get? operation s.failingOn with
  | some (n + 1) => (true, { s with failingOn := Keyed.insert operation n s.failingOn })
  | _ =>
    match s.failing with
    | n + 1 => (true, { s with failing := n })
    | 0 => (false, s)

/-- The answer to a call, and the store after it. -/
def answer (s : MemoryStore) (call : ClientCall) : call.Result × MemoryStore :=
  match s.takeFailure call.operation with
  | (true, s) => (.error (.transient (call.operation ++ ": injected failure")), s)
  | (false, s) =>
    let (result, collections) := s.collections.answer call
    (result, { s with collections })

end MemoryStore

end CodeAtlas
