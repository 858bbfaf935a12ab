import CodeAtlas.Error
import CodeAtlas.FileSystem.Path
import CodeAtlas.Keyed
import CodeAtlas.Timestamp
/-!
A file system as a value: a tree of directories, files and links. The place of a node is the list
of names that leads to it from the root, without following links.
-/

namespace CodeAtlas

/-- A node of a file system. The entries of a directory are kept in the order of their names. -/
inductive DiskNode where
  | file (content : ByteArray) (modified : Timestamp)
  /-- A symbolic link. -/
  | link (target : String)
  | dir (entries : List (String × DiskNode))

namespace DiskNode

def isDir : DiskNode → Bool
  | dir _ => true
  | _ => false

/-- The entries of a directory; other nodes have none. -/
def entries : DiskNode → List (String × DiskNode)
  | dir es => es
  | _ => []

/-- The node at a place below a node. -/
def at? : List String → DiskNode → Option DiskNode
  | [], node => some node
  | name :: rest, node => (Keyed.get? name node.entries).bind (at? rest)

/-- Puts a node at a place below a directory. What leads there has to be directories, else
nothing changes. -/
def put (new : DiskNode) : List String → DiskNode → DiskNode
  | [], _ => new
  | name :: rest, dir es =>
    match rest, Keyed.get? name es with
    | [], _ => dir (Keyed.insert name new es)
    | _, some child => dir (Keyed.insert name (put new rest child) es)
    | _, none => dir es
  | _, node => node

/-- Removes the node at a place below a directory, with all below it. -/
def erase : List String → DiskNode → DiskNode
  | [], node => node
  | [name], dir es => dir (Keyed.erase name es)
  | name :: rest, dir es =>
    match Keyed.get? name es with
    | some child => dir (Keyed.insert name (erase rest child) es)
    | none => dir es
  | _, node => node

mutual
/-- The number of directories of a tree. -/
def dirCount : DiskNode → Nat
  | dir es => 1 + dirCounts es
  | _ => 0

def dirCounts : List (String × DiskNode) → Nat
  | [] => 0
  | (_, node) :: rest => dirCount node + dirCounts rest
end

mutual
/-- The files of a tree with their places, links left out. -/
def files : List String → DiskNode → List (List String × ByteArray)
  | place, file content _ => [(place, content)]
  | _, link _ => []
  | place, dir es => filesOf place es

def filesOf (place : List String) :
    List (String × DiskNode) → List (List String × ByteArray)
  | [] => []
  | (name, node) :: rest => files (place ++ [name]) node ++ filesOf place rest
end

end DiskNode

/-- A file system: what lies below its root, the directory from which relative paths are seen, and
the time that files written now get. -/
structure FileSystem where
  root : DiskNode
  current : List String := []
  clock : Timestamp := ⟨0, 0⟩

/-- Why the file system refuses. -/
inductive DiskError where
  | notFound | exists | notADirectory | isADirectory | nameTooLong | tooManyLinks
  /-- A zero character in a path. -/
  | zeroInPath
  /-- A text was asked for, and the bytes are not UTF-8. -/
  | notText
deriving DecidableEq, Repr

namespace DiskError

def message : DiskError → String
  | notFound => "No such file or directory (os error 2)"
  | .exists => "File exists (os error 17)"
  | notADirectory => "Not a directory (os error 20)"
  | isADirectory => "Is a directory (os error 21)"
  | nameTooLong => "File name too long (os error 36)"
  | tooManyLinks => "Too many levels of symbolic links (os error 40)"
  | zeroInPath => "file name contained an unexpected NUL byte"
  | notText => "stream did not contain valid UTF-8"

/-- The failure that stands for a refusal. -/
def failure (e : DiskError) : Failure :=
  let cause : IoCause := match e with
    | notFound => .notFound
    | notADirectory => .notADirectory
    | isADirectory => .isADirectory
    | notText => .invalidData
    | _ => .other
  .io cause e.message

end DiskError

namespace FileSystem

/-- A file system with nothing in it. -/
def empty : FileSystem := { root := .dir [] }

/-- The node at a place. -/
def at? (fs : FileSystem) (place : List String) : Option DiskNode := fs.root.at? place

end FileSystem

end CodeAtlas
