import CodeAtlas.Text.Blank
/-!
Paths as they are written: names between slashes. A path that begins with a slash is absolute.
Repeated slashes, a slash at the end and the name `.` inside a path mean nothing.
-/

namespace CodeAtlas.Path

def isAbsolute (path : String) : Bool := Text.startsWith "/" path

/-- The names along a path, `.` left out. -/
def names (path : String) : List String :=
  (Text.splitOn (· == '/') path).filter fun n => n != "" && n != "."

/-- A path seen from another one: an absolute path is taken as it is. -/
def join (base path : String) : String :=
  if isAbsolute path then path
  else if base == "" || Text.endsWith "/" base then base ++ path
  else base ++ "/" ++ path

/-- The last name of a path. -/
def fileName? (path : String) : Option String :=
  match (names path).getLast? with
  | some ".." | none => none
  | some name => some name

/-- What follows the last point of the last name of a path. A point at the beginning of the name
does not count. -/
def extension? (path : String) : Option String := do
  let name ← fileName? path
  let behind := name.toList.reverse.takeWhile (· != '.')
  let before := name.length - behind.length
  if before ≤ 1 then none else some (.ofList behind.reverse)

/-- The path without its last name. -/
def parent? (path : String) : Option String :=
  match (names path).reverse with
  | [] => none
  | _ :: rest =>
    some ((if isAbsolute path then "/" else "") ++ "/".intercalate rest.reverse)

/-- The path of names below the root of a file system. -/
def ofNames (names : List String) : String := "/" ++ "/".intercalate names

end CodeAtlas.Path
