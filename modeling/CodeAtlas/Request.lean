import CodeAtlas.Collection.Call
import CodeAtlas.FileSystem.Change
import CodeAtlas.Program
import CodeAtlas.Timestamp
import CodeAtlas.Uuid
/-!
What the work on projects asks of its surroundings: a vector store, an embedder, files, fresh ids,
the time, and somebody who is told how far the work has come.
-/

namespace CodeAtlas

/-- A change of the file system. -/
inductive DiskChange where
  | makeDirs (path : String)
  | write (path : String) (content : ByteArray)
  | removeFile (path : String)
  | removeTree (path : String)

namespace DiskChange

/-- The file system after a change, unless it refuses. -/
def apply (fs : FileSystem) : DiskChange → Except DiskError FileSystem
  | makeDirs path => fs.makeDirs path
  | write path content => fs.write path content
  | removeFile path => fs.removeFile path
  | removeTree path => fs.removeTree path

end DiskChange

/-- What a store remembers about its collection, so that it does not ask again. -/
inductive Milestone where
  /-- The collection is there. -/
  | ready
  /-- Its indexes are declared. -/
  | indexed
deriving DecidableEq, Repr

/-- What is asked. -/
inductive Request where
  | client (call : ClientCall)
  | embed (text : String)
  | embedAll (texts : List String)
  | hasReached (m : Milestone)
  | reach (m : Milestone)
  | freshId
  | now
  | pause (nanos : Nat)
  /-- Tells how far the work has come. -/
  | report (message : String)
  /-- Looks at the files below some directories. -/
  | look (paths : List String)
  | change (c : DiskChange)

namespace Request

/-- What a request is answered with. -/
@[reducible] def Answer : Request → Type
  | client call => call.Result
  | embed _ => Except Failure Embedding
  | embedAll _ => Except Failure (List Embedding)
  | hasReached _ => Bool
  | reach _ | pause _ | report _ => Unit
  | freshId => Uuid
  | now => Timestamp
  | look _ => FileSystem
  | change _ => Except DiskError Unit

end Request

/-- A course of work. -/
abbrev Plan := Program Request.Answer

/-- A course of work that may fail. -/
abbrev Attempt := ExceptT Failure Plan

/-- Asks for something. -/
def ask (r : Request) : Plan r.Answer := Program.perform r

namespace Attempt

/-- Calls a vector store once. -/
def client (call : ClientCall) : Attempt call.Answer := ExceptT.mk (ask (.client call))

/-- Tells how far the work has come. -/
def report (message : String) : Attempt Unit := ExceptT.lift (ask (.report message))

/-- Looks at the files below some directories. -/
def look (paths : List String) : Attempt FileSystem := ExceptT.lift (ask (.look paths))

def freshId : Attempt Uuid := ExceptT.lift (ask .freshId)

def now : Attempt Timestamp := ExceptT.lift (ask .now)

/-- What comes of an attempt, be it a failure. -/
def outcome {α : Type} (a : Attempt α) : Attempt (Except Failure α) := ExceptT.lift a.run

end Attempt

end CodeAtlas
