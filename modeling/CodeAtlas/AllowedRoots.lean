import CodeAtlas.Error
import CodeAtlas.FileSystem.Resolve
/-!
Which directories may be indexed: those that lie in one of the allowed roots after all links are
resolved.
-/

namespace CodeAtlas.AllowedRoots

/-- Why a path may not be indexed. -/
inductive Refusal where
  | empty
  | traversal
  | missing (path : String)
  | notDirectory (path : String)
  | outside (path : String)
deriving DecidableEq, Repr

def Refusal.message : Refusal → String
  | empty => "Path must not be empty"
  | traversal => "Path traversal not allowed"
  | missing path => "Path does not exist: " ++ path
  | notDirectory path => "Path is not a directory: " ++ path
  | outside path => "Path not in allowed roots: " ++ path

/-- Whether a place lies in an allowed root, or is one. Roots that lead nowhere allow nothing. -/
def allows (fs : FileSystem) (roots : List String) (place : List String) : Bool :=
  roots.any fun root =>
    match fs.resolve root with
    | .ok rootPlace => rootPlace.isPrefixOf place
    | .error _ => false

/-- The place of a directory that may be indexed. The file system is not asked before the text of
the path has been checked. -/
def check (fs : FileSystem) (roots : List String) (path : String) :
    Except Refusal (List String) :=
  if Text.isAllBlank path then .error .empty
  else if Text.contains ".." path then .error .traversal
  else match fs.resolve path with
    | .error _ => .error (.missing path)
    | .ok place =>
      if !(fs.at? place).any (·.isDir) then .error (.notDirectory path)
      else if !allows fs roots place then .error (.outside path)
      else .ok place

/-- The path, without links in it, of a directory that may be indexed. -/
def validate (fs : FileSystem) (roots : List String) (path : String) : Except Failure String :=
  match check fs roots path with
  | .ok place => .ok (Path.ofNames place)
  | .error refusal => .error (.validation refusal.message)

end CodeAtlas.AllowedRoots
