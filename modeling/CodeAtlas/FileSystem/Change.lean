import CodeAtlas.FileSystem.Resolve
/-!
Changes of a file system: files are written, directories made, and both removed.
-/

namespace CodeAtlas.FileSystem

/-- The place of a node that may not exist yet: its directory has to. The last name of the path is
not followed if it is a link. -/
def placeOf (fs : FileSystem) (path : String) : Except DiskError (List String) := do
  checkPath path
  match (steps path).reverse with
  | [] => .error .exists
  | name :: rest =>
    let place ← lookUpWithin fs maxLinks (fs.start path) (rest.reverse ++ ["."])
    if name == "." || name == ".." then .error .exists
    else if name.utf8ByteSize > maxName then .error .nameTooLong
    else .ok (place ++ [name])

def put (fs : FileSystem) (place : List String) (node : DiskNode) : FileSystem :=
  { fs with root := DiskNode.put node place fs.root }

def erase (fs : FileSystem) (place : List String) : FileSystem :=
  { fs with root := DiskNode.erase place fs.root }

/-- The place at which a file is written. A link at that place is followed, also if nothing is
there yet. -/
def writePlace (fs : FileSystem) : Nat → String → Except DiskError (List String)
  | 0, _ => .error .tooManyLinks
  | n + 1, path => do
    if Text.endsWith "/" path then .error .isADirectory
    else
      let place ← fs.placeOf path
      match fs.at? place with
      | some (.link target) =>
        writePlace fs n (Path.join (Path.ofNames place.dropLast) target)
      | some (.dir _) => .error .isADirectory
      | _ => .ok place

/-- Writes a file, instead of one that is there. The links before and behind the last name of the
path count together, so the whole path has to lead to the file. -/
def write (fs : FileSystem) (path : String) (content : ByteArray) :
    Except DiskError FileSystem := do
  let written := fs.put (← fs.writePlace maxLinks path) (.file content fs.clock)
  let _ ← written.resolve path
  return written

/-- Makes one directory. -/
def makeDir (fs : FileSystem) (path : String) : Except DiskError FileSystem := do
  let place ← fs.placeOf (Text.trimRightWhile (· == '/') path)
  match fs.at? place with
  | some _ => .error .exists
  | none => .ok (fs.put place (.dir []))

/-- Makes a directory and those above it: `levels` bounds how many. -/
def makeDirsWithin : Nat → FileSystem → String → Except DiskError FileSystem
  | 0, _, _ => .error .notFound
  | levels + 1, fs, path =>
    if path == "" then .ok fs
    else match fs.makeDir path with
      | .ok fs' => .ok fs'
      | .error .notFound =>
        match Path.parent? path with
        | none => .error .notFound
        | some above =>
          match makeDirsWithin levels fs above with
          | .error e => .error e
          | .ok fs' =>
            match fs'.makeDir path with
            | .ok fs'' => .ok fs''
            | .error e => if fs'.isDirectory path then .ok fs' else .error e
      | .error e => if fs.isDirectory path then .ok fs else .error e

/-- Makes a directory and those above it that are missing. -/
def makeDirs (fs : FileSystem) (path : String) : Except DiskError FileSystem :=
  makeDirsWithin ((Path.names path).length + 1) fs path

/-- Removes a file or a link. -/
def removeFile (fs : FileSystem) (path : String) : Except DiskError FileSystem := do
  let place ← fs.placeOf path
  match fs.at? place with
  | none => .error .notFound
  | some (.dir _) => .error .isADirectory
  | some _ => .ok (fs.erase place)

/-- Removes a directory with all below it. A link is removed alone. -/
def removeTree (fs : FileSystem) (path : String) : Except DiskError FileSystem := do
  let place ← fs.placeOf path
  match fs.at? place with
  | none => .error .notFound
  | some (.file _ _) => .error .notADirectory
  | some _ => .ok (fs.erase place)

end CodeAtlas.FileSystem
