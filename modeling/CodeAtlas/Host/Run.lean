import CodeAtlas.CommandLine.Run
import CodeAtlas.Host
/-!
Tools, the server and the commands in surroundings that are a value.
-/

namespace CodeAtlas.Host

/-- Calls a tool. -/
def callTool (x : Indexer) (name : String) (args : Json) : StateM Host Json := fun h =>
  let (payload, h) := h.run (x.callTool name args)
  (ToolPayload.settle payload, h)

/-- Does something without telling how far it has come. -/
def quietly {α : Type} (work : StateM Host α) : StateM Host α := fun h =>
  let (a, after) := work h
  (a, { after with reports := h.reports })

/-- Serves an input: what is written, and why the session has ended early, if it has. -/
def serveInput (x : Indexer) (input : ByteArray) : StateM Host (String × Option String) :=
  Rpc.serve (fun name args => quietly (callTool x name args)) input

/-- The surroundings that a configuration asks for. -/
def configured (h : Host) (c : Config) : Host :=
  { h with store := .remote (RemoteStore.ofConfig c.store), embedder := CommandLine.embedderOf c }

open CommandLine in
/-- Does a job. -/
def perform (input : ByteArray) (job : Job) (h : Host) : Ending × Host :=
  match job with
  | .finish ending => (ending, h)
  | .callTool config tool args =>
    let (payload, h) := callTool (indexerOf config) tool.name args (h.configured config)
    (.ofPayload tool payload, h)
  | .serve config =>
    let ((output, reason), h) := serveInput (indexerOf config) input (h.configured config)
    (.ofSession output reason, h)

open CommandLine in
/-- Runs the program with variables, an input and arguments. -/
def runProgram (h : Host) (lookUp : String → Option String) (input : ByteArray)
    (words : List String) : Ending × Host :=
  match h.run (CommandLine.plan lookUp words) with
  | (.ok job, h) => perform input job h
  | (.error crash, h) => (.ofCrash crash, h)

end CodeAtlas.Host
