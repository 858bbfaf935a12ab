import CodeAtlas.Scan
import CodeAtlas.SourceFile
/-!
Parsing files one after another, and hashing them. What goes wrong with one file is noted, and the
others are not affected.
-/

namespace CodeAtlas

/-- What became of a list of files. -/
structure ParseRun where
  /-- The number of files. -/
  scanned : Nat := 0
  /-- How many of them follow their grammar. -/
  parsed : Nat := 0
  /-- How many are binary. -/
  skipped : Nat := 0
  /-- How many do not follow their grammar. -/
  failed : Nat := 0
  symbols : Nat := 0
  /-- One text for each file that could not be read or does not follow its grammar. -/
  errors : List String := []
  /-- The files that could be read. -/
  files : List SourceFile := []
deriving DecidableEq, Repr

namespace ParseRun

/-- What a file of the file system tells, if its language is known and it can be read. -/
def read? (fs : FileSystem) (f : ScannedFile) : Option SourceFile :=
  match Language.ofName? f.language, fs.find f.path with
  | some language, .ok (.file bytes modified) =>
    some (SourceFile.ofBytes language f.relative bytes modified)
  | _, _ => none

/-- Adds a file to a run. -/
def add (run : ParseRun) (f : ScannedFile) (file : Option SourceFile) : ParseRun :=
  let run := { run with scanned := run.scanned + 1 }
  match file with
  | none => { run with errors := run.errors ++ [f.relative ++ ": unreadable"] }
  | some file =>
    let run := match file.status with
      | .success => { run with parsed := run.parsed + 1 }
      | .skipped => { run with skipped := run.skipped + 1 }
      | .error =>
        { run with
          failed := run.failed + 1
          errors := run.errors ++ [f.relative ++ ": " ++ file.message.getD "parse error"] }
    { run with symbols := run.symbols + file.symbolCount, files := run.files ++ [file] }

/-- Parses files one after another and reports each that could be read. -/
def ofFiles {m : Type → Type} [Monad m] (fs : FileSystem) (report : SourceFile → m Unit)
    (files : List ScannedFile) : m ParseRun :=
  files.foldlM (fun run f => do
    let file := read? fs f
    match file with
    | some file => report file
    | none => pure ()
    return run.add f file) {}

end ParseRun

/-- The hashes of files and the files themselves, both by their paths from the root. -/
structure Snapshot where
  hashes : List (String × String) := []
  files : List (String × ScannedFile) := []
deriving DecidableEq, Repr

namespace Snapshot

/-- The snapshot of those files that can be read. -/
def ofFiles (fs : FileSystem) (files : List ScannedFile) : Snapshot :=
  files.foldl (fun snapshot f =>
    match fs.read f.path with
    | .ok bytes => {
        hashes := Keyed.insert f.relative (Sha256.digest bytes) snapshot.hashes
        files := Keyed.insert f.relative f snapshot.files }
    | .error _ => snapshot) {}

end Snapshot

end CodeAtlas
