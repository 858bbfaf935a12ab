import CodeAtlas.Indexing.Basic
/-!
Indexing a project as a whole. What was known of the root is deleted before, and the project keeps
its id.
-/

namespace CodeAtlas

/-- What came of indexing a project. -/
structure IndexOutcome where
  project : Uuid
  fileCount : Nat
  /-- How many files follow their grammar. -/
  filesParsed : Nat
  symbolCount : Nat
  errors : List String
  outputDir : String
deriving Repr

namespace Indexer

/-- The name of a project: that of its directory. -/
def projectName (root : String) : String := (Path.fileName? root).getD root

/-- The project that is stored before its files are: a new one, or one under the id of the root. -/
def beginProject (x : Indexer) (root : String) (patterns : List String) : Attempt Project := do
  let id ← Attempt.freshId
  let new : Project := { id, name := projectName root, rootPath := root }
  let new := new.setExcludePatterns patterns
  match ← x.store.findByRoot root with
  | none => return new
  | some old =>
    let _ ← x.store.deleteProject old.id
    return { new with id := old.id }

/-- Writes all documents about a project, and takes those about files away that were there. -/
def writeAll (dir : String) (project : Project) (files : List SourceFile) : Attempt Unit := do
  Output.clearFiles dir
  Output.writeProject dir project
  Output.writeStructure dir (files.map SourceFile.summary)
  Output.writeFiles dir files

/-- Indexes the project of a root. -/
def indexProject (x : Indexer) (path : String) (patterns : List String) : Attempt IndexOutcome := do
  let root ← x.validateRoot path
  Attempt.report ("Starting indexing of " ++ root)
  let project ← x.beginProject root patterns
  let _ ← x.store.storeProject project
  Attempt.report "Scanning directory..."
  let (fs, found) ← x.scanRoot root patterns
  let run ← parseFiles fs "Parsed" found
  Attempt.report ("Found " ++ toString run.files.length ++ " files with " ++ toString run.symbols ++
    " symbols")
  Attempt.report "Storing project in vector database..."
  x.storeOrMark project run.files
  let project := { project with
    status := .active
    fileCount := run.files.length
    symbolCount := run.symbols
    indexedAt := some (← Attempt.now) }
  let _ ← x.store.storeProject project
  let dir := x.config.outputDirFor root project.name
  Attempt.report ("Writing YAML output to " ++ dir)
  writeAll dir project run.files
  Attempt.report "Indexing complete!"
  return {
    project := project.id
    fileCount := project.fileCount
    filesParsed := run.parsed
    symbolCount := project.symbolCount
    errors := run.errors
    outputDir := dir }

end Indexer

end CodeAtlas
