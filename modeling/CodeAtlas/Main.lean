import CodeAtlas.CommandLine.Run
import CodeAtlas.Remote.Store
import Std.Time.DateTime.Timestamp
/-!
The program: what the commands ask for is done with the real disk, clock and streams. Nothing
answers at the address of a store, so no work gets past its first call to one.
-/

namespace CodeAtlas.Main

open CommandLine

/-! ## The disk -/

/-- The file or directory at a path without links in it. What is in a directory is not listed. -/
def nodeAt (path : String) : IO DiskNode := do
  try
    let _ ← IO.FS.realPath (path ++ "/.")
    return .dir []
  catch _ => return .file (← IO.FS.readBinFile path) ⟨0, 0⟩

/-- Puts what a path leads to into a file system. If the path has links in it, it becomes a link
itself. -/
def survey (fs : FileSystem) (path : String) : IO FileSystem := do
  try
    let path := Path.join (Path.ofNames fs.current) path
    let place := Path.names (toString (← IO.FS.realPath path))
    let real := Path.ofNames place
    let parents (p : String) (fs : FileSystem) : FileSystem :=
      (fs.makeDirs ((Path.parent? p).getD "/")).toOption.getD fs
    let fs := parents real fs
    let fs ← if (fs.at? place).isSome then pure fs
      else pure (fs.put place (← nodeAt real))
    if (fs.resolve path).toOption == some place then return fs
    else
      let fs := parents path fs
      return match fs.placeOf path with
        | .ok link => fs.put link (.link real)
        | .error _ => fs
  catch _ => return fs

/-- A file system with what paths lead to. -/
def surveyAll (paths : List String) : IO FileSystem := do
  let current := Path.names (toString (← IO.currentDir))
  let fs := { FileSystem.empty with current }
  paths.foldlM survey ((fs.makeDirs (Path.ofNames current)).toOption.getD fs)

/-- Changes the disk. -/
def changeDisk : DiskChange → IO Unit
  | .makeDirs path => IO.FS.createDirAll path
  | .write path content => IO.FS.writeBinFile path content
  | .removeFile path => IO.FS.removeFile path
  | .removeTree path => IO.FS.removeDirAll path

/-! ## Requests -/

/-- What a request is answered from. -/
structure Surroundings where
  store : RemoteStore
  embedder : Option Embedder
  milestones : IO.Ref (List Milestone)
  /-- Who is told how far the work has come. -/
  tell : String → IO Unit

def noEmbedder : Failure := .embedding "no embedder"

/-- The time. -/
def now : IO Timestamp := do
  let t ← Std.Time.Timestamp.now
  return ⟨t.val.second.val, t.val.nano.val.toNat⟩

def randomId : IO Uuid := do
  let bytes ← IO.getRandomBytes 16
  return .ofRandom (.ofNat 128 (bytes.foldl (fun n b => n * 256 + b.toNat) 0))

/-- Answers a request. -/
def answer (s : Surroundings) : (r : Request) → IO r.Answer
  | .client call => return s.store.answer call
  | .embed text => return match s.embedder with
    | some e => e.embed text
    | none => .error noEmbedder
  | .embedAll texts => return match s.embedder with
    | some e => e.embedAll texts
    | none => .error noEmbedder
  | .hasReached m => return (← s.milestones.get).contains m
  | .reach m => s.milestones.modify (m :: ·)
  | .freshId => randomId
  | .now => now
  | .pause nanos => IO.sleep (.ofNat (nanos / 1000000))
  | .report message => s.tell message
  | .look paths => surveyAll paths
  | .change c => do
    try
      changeDisk c
      return .ok ()
    catch
      | .noFileOrDirectory .. => return .error .notFound
      | _ => return .error .notADirectory

/-- Carries a plan out. -/
def execute {α : Type} (s : Surroundings) : Plan α → IO α
  | .pure a => return a
  | .ask r next => do execute s (next (← answer s r))

/-! ## Jobs -/

/-- The next bytes up to the end of a line. -/
partial def readLine (input : IO.FS.Stream) (line : ByteArray) : IO ByteArray := do
  let b ← input.read 1
  if b.isEmpty || b == ⟨#[10]⟩ then return line ++ b
  else readLine input (line ++ b)

/-- Serves an input line by line, up to its end or a line that is no text. -/
partial def serveInput (callTool : String → Json → IO Json) (input output : IO.FS.Stream) :
    IO Ending := do
  let line ← readLine input .empty
  if line.isEmpty then return .ofSession "" none
  else
    let (replies, reason) ← Rpc.serveLines callTool [line]
    for reply in replies do
      output.putStr reply.line
      output.flush
    if reason.isSome then return .ofSession "" reason
    else serveInput callTool input output

/-- Does a job. -/
def perform : Job → IO Ending
  | .finish ending => return ending
  | .callTool config tool args => do
    let source : Surroundings := ⟨.ofConfig config.store, embedderOf config, ← IO.mkRef [],
      fun message => IO.eprintln ("  " ++ message)⟩
    return .ofPayload tool (← execute source ((indexerOf config).callTool tool.name args))
  | .serve config => do
    let source : Surroundings :=
      ⟨.ofConfig config.store, embedderOf config, ← IO.mkRef [], fun _ => return⟩
    serveInput (fun name args => execute source ((indexerOf config).callTool name args))
      (← IO.getStdin) (← IO.getStdout)

/-- The values of the variables that are set. -/
def environment : IO (List (String × String)) :=
  ("HOME" :: Config.environmentKeys).filterMapM fun key => do
    return (← IO.getEnv key).map (key, ·)

/-- Runs the program. -/
def run (words : List String) : IO UInt32 := do
  let settings ← environment
  let source : Surroundings := ⟨⟨"", none⟩, none, ← IO.mkRef [], fun _ => return⟩
  let job ← execute source (plan (fun key => (settings.find? (·.1 == key)).map (·.2)) words)
  let ending ← perform job
  IO.print ending.output
  if let some message := ending.error then IO.eprintln ("Error: " ++ message)
  return .ofNat ending.exitCode

end CodeAtlas.Main

def main (words : List String) : IO UInt32 := CodeAtlas.Main.run words
