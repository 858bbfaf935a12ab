import CodeAtlas.Keyed
/-!
What changed between two maps from paths to hashes.
-/

namespace CodeAtlas

/-- The paths that changed, each list in order. -/
structure HashDiff where
  /-- Paths that are new. -/
  added : List String
  /-- Paths whose hash is another one. -/
  modified : List String
  /-- Paths that are gone. -/
  deleted : List String
deriving DecidableEq, Repr

namespace HashDiff

/-- The changes that lead from the stored hashes to the current ones. -/
def compare (current stored : List (String × String)) : HashDiff where
  added := Keyed.keys (current.filter fun (path, _) => !Keyed.contains path stored)
  modified := Keyed.keys (current.filter fun (path, hash) =>
    (Keyed.get? path stored).any (· != hash))
  deleted := Keyed.keys (stored.filter fun (path, _) => !Keyed.contains path current)

def isEmpty (d : HashDiff) : Bool := d.added.isEmpty && d.modified.isEmpty && d.deleted.isEmpty

/-- The paths whose files have to be parsed again. -/
def toReparse (d : HashDiff) : List String := Keyed.sortedSet (d.added ++ d.modified)

/-- The paths whose old entries have to go before new ones are written. Added paths are among
them, so that an entry that the stored hashes do not show is never doubled. -/
def toPurge (d : HashDiff) : List String := Keyed.sortedSet (d.toReparse ++ d.deleted)

def total (d : HashDiff) : Nat := d.added.length + d.modified.length + d.deleted.length

end HashDiff

end CodeAtlas
