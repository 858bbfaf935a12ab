import CodeAtlas.HashDiff
import CodeAtlas.Indexing.Basic
/-!
Bringing the index of a project up to date: only files that have changed are parsed again.
-/

namespace CodeAtlas

/-- What came of an update. -/
structure UpdateOutcome where
  project : Uuid
  diff : HashDiff
  filesParsed : Nat
  fileCount : Nat
  symbolCount : Nat
  outputDir : String
deriving Repr

namespace HashDiff

/-- The changes if every file that is there counts as modified. -/
def force (d : HashDiff) (current stored : List (String × String)) : HashDiff :=
  { d with
    modified := Keyed.sortedSet (d.modified ++ Keyed.keys (current.filter fun (path, _) =>
      Keyed.contains path stored && !d.modified.contains path)) }

end HashDiff

namespace Indexer

/-- What is known of the files now: the stored ones that are still there and have not been parsed
again, and those that have. -/
def mergeSummaries (stored : List StoredFile) (current : List (String × String))
    (reparsed : List String) (files : List SourceFile) : List FileSummary :=
  let kept := (stored.filter fun f =>
    Keyed.contains f.path current && !reparsed.contains f.path).map fun f =>
      (⟨f.path, f.language, f.size, f.symbols⟩ : FileSummary)
  Sorting.sort (fun a b => a.path ≤ b.path) (kept ++ files.map SourceFile.summary)

/-- Takes away the documents about files. -/
def removeDocuments (dir : String) : List String → Attempt Unit
  | [] => pure ()
  | path :: rest => do
    let _ ← Output.removeFile dir path
    removeDocuments dir rest

/-- The project of an id, which has to be known, and its root, which may have to be indexed
still. -/
def knownProject (x : Indexer) (id : Uuid) : Attempt (Project × String) := do
  match ← x.store.loadProject id with
  | none => throw (.notFound ("Project not found: " ++ id.render))
  | some project =>
    match ← (x.validateRoot project.rootPath).outcome with
    | .ok root => return (project, root)
    | .error e =>
      throw (.validation ("Project path no longer valid: " ++ project.rootPath ++
        " (" ++ e.message ++ ")"))

/-- Purges paths from the store, if there are any. -/
def purge (x : Indexer) (project : Uuid) (paths : List String) : Attempt Unit := do
  if paths.isEmpty then pure ()
  else
    let _ ← x.store.deleteFiles project paths
    Attempt.report ("Removed " ++ toString paths.length ++ " file entries")

/-- The changes since files were stored. -/
def changes (force : Bool) (current stored : List (String × String)) : Attempt HashDiff := do
  let diff := HashDiff.compare current stored
  let diff ← if force then do
      Attempt.report "Force full re-index requested"
      pure (diff.force current stored)
    else pure diff
  Attempt.report ("Changes: " ++ toString diff.added.length ++ " added, " ++
    toString diff.modified.length ++ " modified, " ++ toString diff.deleted.length ++ " deleted")
  return diff

/-- Brings the index of a project up to date, or with `force` parses all of its files again. -/
def updateProject (x : Indexer) (id : Uuid) (force : Bool) : Attempt UpdateOutcome := do
  let (project, root) ← x.knownProject id
  Attempt.report ("Updating project: " ++ project.name)
  let stored ← x.store.loadFiles id
  Attempt.report ("Found " ++ toString stored.length ++ " previously indexed files")
  Attempt.report "Scanning for changes..."
  let (fs, found) ← x.scanRoot root project.excludePatterns
  let snapshot := Snapshot.ofFiles fs found
  let diff ← changes force snapshot.hashes (SymbolStore.hashes stored)
  x.purge id diff.toPurge
  let run ← parseFiles fs "Re-indexed" (diff.toReparse.filterMap (Keyed.get? · snapshot.files))
  let filed := { project with id }
  x.storeOrMark filed run.files
  let summaries := mergeSummaries stored snapshot.hashes diff.toReparse run.files
  let project := { project with
    fileCount := summaries.length
    symbolCount := FileSummary.totalSymbols summaries
    indexedAt := some (← Attempt.now)
    status := .active }
  let _ ← x.store.storeProject project
  let dir := x.config.outputDirFor root project.name
  Attempt.report ("Writing YAML output to " ++ dir)
  Output.writeProject dir project
  Output.writeStructure dir summaries
  Output.writeFiles dir run.files
  removeDocuments dir diff.deleted
  Attempt.report "Update complete!"
  return {
    project := id
    diff
    filesParsed := run.files.length
    fileCount := project.fileCount
    symbolCount := project.symbolCount
    outputDir := dir }

end Indexer

end CodeAtlas
