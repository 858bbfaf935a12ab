import CodeAtlas.SourceFile
import CodeAtlas.Keyed
import CodeAtlas.Text.Blank
/-!
The files of a project as a tree of directories. Directories come before files, both in the order
of their names.
-/

namespace CodeAtlas

/-- What the tree tells about a file. -/
structure FileSummary where
  path : String
  language : String
  size : Nat
  symbols : Nat
deriving DecidableEq, Repr

def SourceFile.summary (f : SourceFile) : FileSummary :=
  ⟨f.path, f.language, f.size, f.symbolCount⟩

/-- The number of symbols of files. -/
def FileSummary.totalSymbols : List FileSummary → Nat
  | [] => 0
  | f :: rest => f.symbols + totalSymbols rest

/-- An entry of the tree. A directory has the path from the root of the project. -/
inductive StructureEntry where
  | directory (path : String) (children : List StructureEntry)
  | file (summary : FileSummary)

/-- Directories and files by their names. -/
inductive DirectoryTree where
  | node (dirs : List (String × DirectoryTree)) (files : List (String × FileSummary))

namespace DirectoryTree

def empty : DirectoryTree := node [] []

/-- Puts a file below the directories, which are made if they are missing. A later file takes the
place of one with the same path. -/
def insert (file : FileSummary) (name : String) : List String → DirectoryTree → DirectoryTree
  | [], node dirs files => node dirs (Keyed.insert name file files)
  | dir :: rest, node dirs files =>
    node (Keyed.insert dir (insert file name rest ((Keyed.get? dir dirs).getD empty)) dirs) files

/-- The tree of the files. -/
def ofFiles (files : List FileSummary) : DirectoryTree :=
  files.foldl (fun tree file =>
    let names := Text.splitOn (· == '/') file.path
    insert file (names.getLast?.getD "") names.dropLast tree) empty

/-- The path of a name below a directory. -/
def childPath (dir name : String) : String := if dir == "" then name else dir ++ "/" ++ name

mutual
/-- The entries of a directory. -/
def entries (path : String) : DirectoryTree → List StructureEntry
  | node dirs files => dirEntries path dirs ++ files.map fun (_, file) => .file file

def dirEntries (path : String) : List (String × DirectoryTree) → List StructureEntry
  | [] => []
  | (name, tree) :: rest =>
    .directory (childPath path name) (entries (childPath path name) tree) :: dirEntries path rest
end

end DirectoryTree

/-- The tree of the files as a list of entries. -/
def structureOf (files : List FileSummary) : List StructureEntry :=
  (DirectoryTree.ofFiles files).entries ""

end CodeAtlas
