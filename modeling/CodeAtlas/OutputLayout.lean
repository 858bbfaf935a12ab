import CodeAtlas.FileSystem.Path
/-!
Where the documents about a project are written below its output directory.
-/

namespace CodeAtlas.OutputLayout

/-- A path as one name: slashes and backslashes become underscores. Different paths may get the
same name. -/
def flatName (path : String) : String := path.map fun c => if c == '/' || c == '\\' then '_' else c

def projectDocument (dir : String) : String := Path.join dir "project.yaml"

def structureDocument (dir : String) : String := Path.join dir "structure.yaml"

/-- The directory of the documents about single files. -/
def filesDir (dir : String) : String := Path.join dir "files"

/-- The document about a file. -/
def fileDocument (dir path : String) : String :=
  Path.join (filesDir dir) (flatName path ++ ".yaml")

end CodeAtlas.OutputLayout
