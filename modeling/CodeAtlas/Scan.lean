import CodeAtlas.Exclusion
import CodeAtlas.FileSystem.Resolve
import CodeAtlas.Language
/-!
Walking a root: which source files lie below it. Entries are visited in the order of their names.
Links are followed, and a link to a directory on the way from the root to it is left out, so the
walk ends. A file that can be reached in several ways counts where it is reached first. What a way
leads to is found as for any other path, so a way with too many links leads nowhere.
-/

namespace CodeAtlas

/-- A source file below a root. -/
structure ScannedFile where
  /-- The root as it was given, and the way from there. -/
  path : String
  /-- The way from the root. -/
  relative : String
  language : String
  size : Nat
deriving DecidableEq, Repr

namespace Scan

/-- The names on a way from the root, as a path from there. -/
def relativePath (way : List String) : String := "/".intercalate way

/-- A way from a root as a path. -/
def pathOf (root : String) (way : List String) : String := Path.join root (relativePath way)

mutual
/-- The ways to the files below the entries of a directory. `above` has the places of the
directories on the way, and `follow` walks what a link leads to. -/
def entries (prune : List String → Bool)
    (follow : List (List String) → List String → List (List String))
    (above : List (List String)) (way place : List String) :
    List (String × DiskNode) → List (List String)
  | [] => []
  | (name, node) :: rest =>
    entry prune follow above (way ++ [name]) (place ++ [name]) node ++
      entries prune follow above way place rest

def entry (prune : List String → Bool)
    (follow : List (List String) → List String → List (List String))
    (above : List (List String)) (way place : List String) : DiskNode → List (List String)
  | .file _ _ => [way]
  | .link _ => follow above way
  | .dir es => if prune way then [] else entries prune follow (place :: above) way place es
end

/-- What a link at the end of a way leads to, with so many links to directories on the way. -/
def follow (fs : FileSystem) (prune : List String → Bool) (root : String) :
    Nat → List (List String) → List String → List (List String)
  | 0, _, _ => []
  | links + 1, above, way =>
    match fs.resolve (pathOf root way) with
    | .error _ => []
    | .ok target =>
      match fs.at? target with
      | some (.dir es) =>
        if above.contains target || prune way then []
        else entries prune (follow fs prune root links) (target :: above) way target es
      | some _ => [way]
      | none => []

/-- The ways to the files below a root, in the order of the walk. A link never leads to a directory
on the way, so there are at most as many links on a way as directories in the file system. -/
def walk (fs : FileSystem) (prune : List String → Bool) (root : String) : List (List String) :=
  match fs.resolve root with
  | .error _ => []
  | .ok place =>
    match fs.at? place with
    | some (.dir es) =>
      entries prune (follow fs prune root (fs.root.dirCount + 1)) [place] [] place es
    | _ => []

/-- Whether a file on a way counts as a source file, wherever it is. -/
def language? (excludes : ExcludeSet) (way : List String) : Option Language :=
  if excludes.excludes (relativePath way) then none
  else (way.getLast?.bind Path.extension?).bind Language.ofExtension?

/-- The source file to which a way leads, and its place. -/
def candidate? (fs : FileSystem) (excludes : ExcludeSet) (root : String) (way : List String) :
    Option (List String × ScannedFile) :=
  match language? excludes way with
  | none => none
  | some language =>
    match fs.resolve (pathOf root way) with
    | .error _ => none
    | .ok place =>
      match fs.at? place with
      | some (.file content _) =>
        some (place, ⟨pathOf root way, relativePath way, language.name, content.size⟩)
      | _ => none

/-- The first file at each place, unless it is too large. `seen` has the places that were met
before, whatever the size. -/
def select (maxSize : Nat) :
    List (List String) → List (List String × ScannedFile) → List ScannedFile
  | _, [] => []
  | seen, (place, f) :: rest =>
    if seen.contains place then select maxSize seen rest
    else if f.size ≤ maxSize then f :: select maxSize (place :: seen) rest
    else select maxSize (place :: seen) rest

/-- The source files on a walk. -/
def files (fs : FileSystem) (prune : List String → Bool) (excludes : ExcludeSet) (maxSize : Nat)
    (root : String) : List ScannedFile :=
  select maxSize [] ((walk fs prune root).filterMap (candidate? fs excludes root))

end Scan

/-- The source files below a root. Directories that are excluded as a whole are not entered. -/
def scan (fs : FileSystem) (excludes : ExcludeSet) (maxSize : Nat) (root : String) :
    List ScannedFile :=
  Scan.files fs (fun way => excludes.prunes (Scan.relativePath way)) excludes maxSize root

end CodeAtlas
