import CodeAtlas.CommandLine.Command
import CodeAtlas.Config.Toml
import CodeAtlas.Embedding.Embedder
import CodeAtlas.Rpc.Server
/-!
What the commands come to: a job for which the configuration has been read, and in the end an exit
code and what is written.
-/

namespace CodeAtlas.CommandLine

/-- How a run of the program ends. -/
structure Ending where
  exitCode : Nat
  /-- What is written to the standard output. -/
  output : String
  /-- What is told about an error. -/
  error : Option String := none
deriving DecidableEq, Repr

/-- What there is to be done. -/
inductive Job where
  | finish (ending : Ending)
  | callTool (config : Config) (tool : Tool) (args : Json)
  | serve (config : Config)

/-! ## Endings -/

/-- What is told about how the program is called. -/
def usage : String := "usage: archindex [-c FILE] COMMAND\n\ncommands:\n" ++ String.join [
  "  index [PATH] [-x GLOB]...        index a project\n",
  "  update ID [--force-full]         bring the index of a project up to date\n",
  "  search QUERY [-p ID] [-l COUNT]  search files and symbols\n",
  "  list                             list the projects\n",
  "  delete ID                        remove a project from the index\n",
  "  serve                            serve the tools on standard input and output\n",
  "  tools [--openai]                 print the descriptions of the tools\n"]

namespace Ending

/-- The ending when arguments are no invocation. The version names the command, if there is one. -/
def ofNotice (n : Notice) : Ending :=
  match n.interruption with
  | .misuse => ⟨2, "", some usage⟩
  | .help => ⟨0, usage, none⟩
  | .version =>
    let names := "archindex" :: (n.command.map CommandName.text).toList
    ⟨0, "-".intercalate names ++ " 0.1.0\n", none⟩

/-- The ending of a call of a tool. -/
def ofPayload (tool : Tool) (payload : Json) : Ending :=
  let output := payload.pretty ++ "\n"
  if ToolPayload.isError payload then ⟨1, output, some (tool.name ++ " failed")⟩
  else ⟨0, output, none⟩

/-- The ending of a session of the server. -/
def ofSession (output : String) : Option String → Ending
  | some reason => ⟨1, output, some reason⟩
  | none => ⟨0, output, none⟩

/-- The ending when the surroundings break down. -/
def ofCrash (c : Crash) : Ending := ⟨101, "", some c.message⟩

end Ending

/-! ## Jobs -/

/-- Where the configuration is looked for if nobody tells. -/
def usualConfigPath (lookUp : String → Option String) : Option String :=
  ((lookUp "HOME").filter (· != "")).map Config.homePath

/-- The configuration: that of a file that is told, which has to be readable, or else the usual one;
and over it the settings of the environment. -/
def configOf (lookUp : String → Option String) (told : Option String) :
    Plan (Except String Config) := do
  match told with
  | some path =>
    let fs ← ask (.look [path])
    match Config.load fs path with
    | .ok c => return .ok (c.withEnvironment lookUp)
    | .error e => return .error ("Failed to load config " ++ path ++ ": " ++ e.message)
  | none =>
    match usualConfigPath lookUp with
    | some path =>
      let fs ← ask (.look [path])
      return .ok ((Config.loadOrDefault fs path).withEnvironment lookUp)
    | none => return .ok (Config.withEnvironment {} lookUp)

/-- The tool of a command with its arguments, given the current directory. -/
def toolOf (current : String) : Command → Option (Tool × List (String × Json))
  | .index path excludes =>
    some (.index, [("path", .str (path.getD current)), ("exclude_patterns", .strings excludes)])
  | .update project force =>
    some (.update, [("project_id", .str project), ("force_full", .bool force)])
  | .search query project limit =>
    some (.search, [("query", .str query), ("limit", .nat limit)] ++
      (project.map fun id => ("project_id", Json.str id)).toList)
  | .list => some (.list, [])
  | .delete project => some (.delete, [("project_id", .str project)])
  | .serve | .tools _ => none

/-- The job of an invocation. The descriptions of the tools need no configuration. -/
def jobOf (lookUp : String → Option String) (i : Invocation) : Plan Job :=
  match i.command with
  | .tools asFunctions => return .finish ⟨0, (Tool.definitions asFunctions).pretty ++ "\n", none⟩
  | command => do
    match ← configOf lookUp i.config with
    | .error reason => return .finish ⟨1, "", some reason⟩
    | .ok config =>
      let fs ← ask (.look [])
      match toolOf (Path.ofNames fs.current) command with
      | some (tool, args) => return .callTool config tool (.ofEntries args)
      | none => return .serve config

/-- The job of arguments. -/
def plan (lookUp : String → Option String) (words : List String) : Plan Job :=
  match parse words with
  | .ok i => jobOf lookUp i
  | .error n => return .finish (.ofNotice n)

/-! ## Surroundings -/

/-- The embedder of a configuration. One that cannot be used is done without. -/
def embedderOf (c : Config) : Option Embedder :=
  match RemoteEmbedder.ofConfig c.embedding with
  | .ok (some (e, _)) => some e.unanswered
  | _ => none

def indexerOf (c : Config) : Indexer where
  config := c
  store := { SymbolStore.ofConfig c.store with hasEmbedder := (embedderOf c).isSome }

end CodeAtlas.CommandLine
