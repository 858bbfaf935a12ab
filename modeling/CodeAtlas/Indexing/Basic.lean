import CodeAtlas.AllowedRoots
import CodeAtlas.Document.Output
import CodeAtlas.ParseRun
import CodeAtlas.SymbolStore.Files
/-!
What indexing a project for the first time and bringing its index up to date have in common.
-/

namespace CodeAtlas

/-- Indexes projects as a configuration says, into a store. -/
structure Indexer where
  config : Config
  store : SymbolStore

namespace Indexer

/-- The patterns, each where it comes first. -/
def distinct : List String → List String
  | [] => []
  | p :: rest => p :: (distinct rest).filter (· != p)

/-- The exclude patterns of the configuration and further ones. -/
def excludes (x : Indexer) (extra : List String) : ExcludeSet :=
  .ofStrings (distinct (x.config.defaultExcludes ++ extra))

/-- The place of a root that may be indexed, without links. -/
def validateRoot (x : Indexer) (path : String) : Attempt String := do
  let fs ← Attempt.look (path :: x.config.allowedRoots)
  ExceptT.mk (pure (AllowedRoots.validate fs x.config.allowedRoots path))

/-- The source files below a root, and the file system in which they were found. -/
def scanRoot (x : Indexer) (root : String) (extra : List String) :
    Attempt (FileSystem × List ScannedFile) := do
  let fs ← Attempt.look [root]
  return (fs, scan fs (x.excludes extra) x.config.maxFileSize root)

/-- So many fresh ids. -/
def freshIds : (n : Nat) → Plan { ids : List Uuid // ids.length = n }
  | 0 => return ⟨[], rfl⟩
  | n + 1 => do
    let id ← ask .freshId
    let ⟨ids, h⟩ ← freshIds n
    return ⟨id :: ids, by simp [h]⟩

/-- Files with fresh ids for their symbols. -/
def fileSources : List SourceFile → Plan (List FiledSource)
  | [] => return []
  | f :: rest => do
    let ⟨ids, h⟩ ← freshIds f.symbolCount
    return ⟨f, ids, h⟩ :: (← fileSources rest)

/-- Parses files and reports each of them with a word in front of its path. -/
def parseFiles (fs : FileSystem) (word : String) (files : List ScannedFile) : Attempt ParseRun :=
  ParseRun.ofFiles fs (fun f => Attempt.report (word ++ " " ++ f.path)) files

/-- Writes files into the store. If that fails, the project is marked as failed, if that can be
done. -/
def storeOrMark (x : Indexer) (project : Project) (files : List SourceFile) : Attempt Unit := do
  let filed ← fileSources files
  match ← (x.store.storeFiles project.id filed).outcome with
  | .ok _ => pure ()
  | .error e =>
    let _ ← (x.store.storeProject { project with status := .error }).outcome
    throw e

end Indexer

end CodeAtlas
