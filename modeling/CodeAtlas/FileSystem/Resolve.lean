import CodeAtlas.FileSystem.Basic
/-!
Finding what a path means: names are looked up one after another, and links on the way are
followed.
-/

namespace CodeAtlas.FileSystem

/-- The longest name in bytes. -/
def maxName : Nat := 255

/-- The shortest text, in bytes, that is too long for a path. -/
def maxPath : Nat := 4096

/-- The most links that are followed for one path. -/
def maxLinks : Nat := 40

/-- The names that are looked up for a path. A slash at the end asks for a directory, as the name
`.` does. -/
def steps (path : String) : List String :=
  (Text.splitOn (· == '/') path).filter (· != "") ++ if Text.endsWith "/" path then ["."] else []

/-- Where the names of a path are looked up first. -/
def start (fs : FileSystem) (path : String) : List String :=
  if Path.isAbsolute path then [] else fs.current

/-- Looks names up from a place. What a link leads to is asked from `follow`, which gets a place
and the names to look up from there. -/
def lookUp (fs : FileSystem)
    (follow : List String → List String → Except DiskError (List String)) :
    List String → List String → Except DiskError (List String)
  | place, [] => .ok place
  | place, name :: rest =>
    if name == "." then lookUp fs follow place rest
    else if name == ".." then lookUp fs follow place.dropLast rest
    else if name.utf8ByteSize > maxName then .error .nameTooLong
    else match fs.at? (place ++ [name]) with
      | none => .error .notFound
      | some (.dir _) => lookUp fs follow (place ++ [name]) rest
      | some (.file _ _) => if rest.isEmpty then .ok (place ++ [name]) else .error .notADirectory
      | some (.link target) =>
        if target == "" then .error .notFound
        else follow (if Path.isAbsolute target then [] else place) (steps target ++ rest)

/-- Looks names up and follows at most so many links. -/
def lookUpWithin (fs : FileSystem) :
    Nat → List String → List String → Except DiskError (List String)
  | 0 => lookUp fs fun _ _ => .error .tooManyLinks
  | n + 1 => lookUp fs (lookUpWithin fs n)

/-- Refuses what cannot be a path. -/
def checkPath (path : String) : Except DiskError Unit :=
  if path.toList.contains '\x00' then .error .zeroInPath
  else if path == "" then .error .notFound
  else if path.utf8ByteSize ≥ maxPath then .error .nameTooLong
  else .ok ()

/-- The place of the file or directory that a path leads to. -/
def resolve (fs : FileSystem) (path : String) : Except DiskError (List String) := do
  checkPath path
  lookUpWithin fs maxLinks (fs.start path) (steps path)

/-- The path of a file or directory that has no links in it. -/
def canonicalize (fs : FileSystem) (path : String) : Except DiskError String :=
  (fs.resolve path).map Path.ofNames

/-- The node that a path leads to. -/
def find (fs : FileSystem) (path : String) : Except DiskError DiskNode := do
  let place ← fs.resolve path
  match fs.at? place with
  | some node => .ok node
  | none => .error .notFound

def isDirectory (fs : FileSystem) (path : String) : Bool :=
  match fs.find path with
  | .ok node => node.isDir
  | .error _ => false

/-- Whether a path leads to anything. -/
def contains (fs : FileSystem) (path : String) : Bool := (fs.resolve path).toBool

/-- The bytes of a file. -/
def read (fs : FileSystem) (path : String) : Except DiskError ByteArray := do
  match ← fs.find path with
  | .file content _ => .ok content
  | _ => .error .isADirectory

/-- The text of a file. -/
def readText (fs : FileSystem) (path : String) : Except DiskError String := do
  match String.fromUTF8? (← fs.read path) with
  | some text => .ok text
  | none => .error .notText

end CodeAtlas.FileSystem
