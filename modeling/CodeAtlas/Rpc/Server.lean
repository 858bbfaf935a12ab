import CodeAtlas.Rpc.Message
import CodeAtlas.Tool.Run
/-!
A server that offers the tools. It reads one request a line and replies to each in turn. It is left
open how a tool is called, so the same server works in any surroundings.
-/

namespace CodeAtlas.Rpc

/-! ## Replies -/

def parseError : Int := -32700

def methodNotFound : Int := -32601

def invalidParams : Int := -32602

/-- What the server says about itself. -/
def introduction : Json := .ofEntries [
  ("protocolVersion", .str "2024-11-05"),
  ("capabilities", .ofEntries [("tools", .ofEntries [("listChanged", .bool false)])]),
  ("serverInfo", .ofEntries [("name", .str "archindex"), ("version", .str "0.1.0")])]

/-- A payload as the content of a result: a text that is easy to read, and whether it tells of an
error. -/
def toolResult (payload : Json) : Json := .ofEntries [
  ("content", .arr [.ofEntries [("type", .str "text"), ("text", .str payload.pretty)]]),
  ("isError", .bool (ToolPayload.isError payload))]

/-- The arguments of a call; what is no object counts as no arguments. -/
def argumentsOf (params : Json) : Json :=
  match params.get? "arguments" with
  | some (.obj entries) => .obj entries
  | _ => .ofEntries []

variable {m : Type → Type} [Monad m]

/-- What a method comes to, given how a tool is called. -/
def perform (callTool : String → Json → m Json) (method : String) (params : Option Json) :
    m Outcome :=
  match method with
  | "initialize" => return .result introduction
  | "tools/list" => return .result (.ofEntries [("tools", Tool.definitions false)])
  | "tools/call" =>
    match params with
    | none => return .error invalidParams "Missing params"
    | some params => do
      let payload ← callTool ((params.getStr? "name").getD "") (argumentsOf params)
      return .result (toolResult payload)
  | "ping" => return .result (.ofEntries [])
  | _ => return .error methodNotFound ("Method not found: " ++ method)

/-- The reply to a line, if it gets one: none goes to blank lines and to notifications. -/
def reply? (callTool : String → Json → m Json) (line : String) : m (Option Reply) :=
  if Text.isAllBlank line then return none
  else match Request.parse? line with
    | none => return some ⟨.null, .error parseError "Parse error: the line is no request"⟩
    | some ⟨none, _, _⟩ => return none
    | some ⟨some id, method, params⟩ => return some ⟨id, ← perform callTool method params⟩

/-! ## Sessions -/

/-- Why a session ends before its input does. -/
def unreadable : String := "stream did not contain valid UTF-8"

/-- The text of a line of bytes without its end: a line feed, with or without a carriage return in
front of it. -/
def lineText? (bytes : ByteArray) : Option String :=
  match bytes.toList.reverse with
  | 10 :: 13 :: rest | 10 :: rest => Text.ofUtf8? ⟨rest.reverse.toArray⟩
  | _ => Text.ofUtf8? bytes

/-- The bytes in lines, each with its end. Only the last one may have none. -/
def splitLines (bytes : List UInt8) : List ByteArray :=
  let (lines, last) := bytes.foldl (fun (lines, line) b =>
    if b == 10 then (⟨(b :: line).reverse.toArray⟩ :: lines, []) else (lines, b :: line)) ([], [])
  (if last.isEmpty then lines else ⟨last.reverse.toArray⟩ :: lines).reverse

/-- The replies to lines, and why the session has ended early, if it has: a line that is no text
ends it. -/
def serveLines (callTool : String → Json → m Json) :
    List ByteArray → m (List Reply × Option String)
  | [] => return ([], none)
  | line :: rest =>
    match lineText? line with
    | none => return ([], some unreadable)
    | some text => do
      let reply ← reply? callTool text
      let (replies, ending) ← serveLines callTool rest
      return (reply.toList ++ replies, ending)

/-- A whole session: what is written, and why it has ended early, if it has. -/
def serve (callTool : String → Json → m Json) (input : ByteArray) : m (String × Option String) := do
  let (replies, ending) ← serveLines callTool (splitLines input.toList)
  return (String.join (replies.map Reply.line), ending)

end CodeAtlas.Rpc
