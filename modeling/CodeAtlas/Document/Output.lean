import CodeAtlas.Document.File
import CodeAtlas.Document.Project
import CodeAtlas.Document.Structure
import CodeAtlas.OutputLayout
import CodeAtlas.Request
/-!
Writing the documents of a project below its output directory.
-/

namespace CodeAtlas.Output

/-- Changes a file or directory. -/
def change (c : DiskChange) : Attempt Unit :=
  ExceptT.mk do return (← ask (.change c)).mapError DiskError.failure

/-- Takes a file or directory away and tells whether it was there. -/
def remove (c : DiskChange) : Attempt Bool :=
  ExceptT.mk do
    match ← ask (.change c) with
    | .ok () => return .ok true
    | .error .notFound => return .ok false
    | .error e => return .error e.failure

/-- Writes a text, and makes the directories above it before. -/
def writeText (path text : String) : Attempt Unit := do
  match Path.parent? path with
  | some dir => change (.makeDirs dir)
  | none => pure ()
  change (.write path text.toUTF8)

def writeProject (dir : String) (p : Project) : Attempt Unit :=
  writeText (OutputLayout.projectDocument dir) (ProjectDocument.ofProject p).render

def writeStructure (dir : String) (files : List FileSummary) : Attempt Unit :=
  writeText (OutputLayout.structureDocument dir) (renderStructure files)

def writeFile (dir : String) (f : SourceFile) : Attempt Unit :=
  writeText (OutputLayout.fileDocument dir f.path) (FileDocument.ofFile f).render

/-- Takes away the document about a file and tells whether it was there. -/
def removeFile (dir path : String) : Attempt Bool :=
  remove (.removeFile (OutputLayout.fileDocument dir path))

/-- Brings the documents about single files up to date. There is none about a file that is
binary. -/
def writeFiles (dir : String) : List SourceFile → Attempt Unit
  | [] => pure ()
  | f :: rest => do
    if f.status = .skipped then
      let _ ← removeFile dir f.path
    else writeFile dir f
    writeFiles dir rest

/-- Takes away the documents about all single files. -/
def clearFiles (dir : String) : Attempt Unit := do
  let _ ← remove (.removeTree (OutputLayout.filesDir dir))

end CodeAtlas.Output
