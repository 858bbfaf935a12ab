import CodeAtlas.Collection.Memory
import CodeAtlas.Embedding.Embedder
import CodeAtlas.Remote.Store
import CodeAtlas.Request
/-!
Surroundings as a value: a vector store, an embedder and a file system that answer the requests of
plans, and that can be told to fail.
-/

namespace CodeAtlas

/-- Where points are kept. -/
inductive VectorStore where
  | memory (s : MemoryStore)
  | remote (s : RemoteStore)

namespace VectorStore

def answer : VectorStore → (call : ClientCall) → call.Result × VectorStore
  | memory s, call =>
    let (result, s) := s.answer call
    (result, memory s)
  | remote s, call => (s.answer call, remote s)

/-- The store in memory, an empty one if points are kept elsewhere. -/
def toMemory : VectorStore → MemoryStore
  | memory s => s
  | remote _ => {}

end VectorStore

/-- What becomes of a call instead of its answer. -/
inductive Mishap where
  | failure (e : Failure)
  | crash (message : String)
  /-- A collection that is asked for seems not to be there. -/
  | absent

/-- A mishap that waits for a call of an operation, after so many other calls of it. -/
structure Fault where
  operation : String
  mishap : Mishap
  skip : Nat := 0

/-- The mishap of a call of an operation, and the faults that are left. The first fault for it that
waits no longer is used up; those before it wait for one call less. -/
def takeFault (operation : String) : List Fault → Option Mishap × List Fault
  | [] => (none, [])
  | f :: rest =>
    if f.operation != operation then
      let (m, rest) := takeFault operation rest
      (m, f :: rest)
    else
      match f.skip with
      | 0 => (some f.mishap, rest)
      | n + 1 =>
        let (m, rest) := takeFault operation rest
        (m, { f with skip := n } :: rest)

/-- What an embedder has been asked for. -/
inductive EmbeddingCall where
  | embed (text : String)
  | embedAll (texts : List String)

/-- Surroundings. -/
structure Host where
  store : VectorStore := .memory {}
  faults : List Fault := []
  embedder : Option Embedder := none
  isReady : Bool := false
  isIndexed : Bool := false
  disk : FileSystem := .empty
  /-- The next id that nobody has. -/
  nextId : Nat := 1
  time : Timestamp := ⟨0, 0⟩
  /-- The calls to the store, the last first. -/
  calls : List ClientCall := []
  /-- The calls to the embedder, the last first. -/
  embeddings : List EmbeddingCall := []
  /-- What has been told, the last first. -/
  reports : List String := []
  /-- The changes of the files that were made, the last first. -/
  changes : List DiskChange := []

namespace Host

/-- The answer of the store, or a mishap. -/
def answerCall (h : Host) (call : ClientCall) : Except Crash call.Result × Host :=
  let (mishap, faults) := takeFault call.operation h.faults
  let h := { h with faults, calls := call :: h.calls }
  match mishap with
  | some (.failure e) => (.ok (.error e), h)
  | some (.crash message) => (.error ⟨message⟩, h)
  | some .absent =>
    match call with
    | .hasCollection _ => (.ok (.ok false), h)
    | call => go h call
  | none => go h call
where
  go (h : Host) (call : ClientCall) : Except Crash call.Result × Host :=
    let (result, store) := h.store.answer call
    (.ok result, { h with store })

/-- What is said when there is no embedder. -/
def noEmbedder : Failure := .embedding "no embedder"

/-- Answers a request. -/
def serve : Program.Service Request.Answer Host
  | .client call, h => h.answerCall call
  | .embed text, h =>
    (.ok (match h.embedder with
      | some e => e.embed text
      | none => .error noEmbedder), { h with embeddings := .embed text :: h.embeddings })
  | .embedAll texts, h =>
    (.ok (match h.embedder with
      | some e => e.embedAll texts
      | none => .error noEmbedder), { h with embeddings := .embedAll texts :: h.embeddings })
  | .hasReached .ready, h => (.ok h.isReady, h)
  | .hasReached .indexed, h => (.ok h.isIndexed, h)
  | .reach .ready, h => (.ok (), { h with isReady := true })
  | .reach .indexed, h => (.ok (), { h with isIndexed := true })
  | .freshId, h => (.ok (.ofNat h.nextId), { h with nextId := h.nextId + 1 })
  | .now, h => (.ok h.time, h)
  | .pause _, h => (.ok (), h)
  | .report message, h => (.ok (), { h with reports := message :: h.reports })
  | .look _, h => (.ok h.disk, h)
  | .change c, h =>
    match c.apply h.disk with
    | .ok disk => (.ok (.ok ()), { h with disk, changes := c :: h.changes })
    | .error e => (.ok (.error e), h)

/-- Runs a plan. -/
def run {α : Type} (h : Host) (p : Plan α) : Except Crash α × Host := Program.run serve p h

/-- Runs an attempt. -/
def attempt {α : Type} (h : Host) (a : Attempt α) : Except Crash (Except Failure α) × Host :=
  h.run (ExceptT.run a)

/-- The surroundings with nothing told about what has happened. -/
def clearLogs (h : Host) : Host :=
  { h with calls := [], embeddings := [], reports := [], changes := [] }

end Host

end CodeAtlas
