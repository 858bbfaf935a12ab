import CodeAtlas.CommandLine.Options
/-!
The commands of the program, and how they are read from arguments.
-/

namespace CodeAtlas

/-- What the program is told to do. -/
inductive Command where
  /-- Without a path, the current directory. -/
  | index (path : Option String) (excludes : List String)
  | update (project : String) (force : Bool)
  | search (query : String) (project : Option String) (limit : Nat)
  | list
  | delete (project : String)
  | serve
  | tools (asFunctions : Bool)
deriving DecidableEq, Repr

/-- A command, and where the configuration is, if that is told. -/
structure Invocation where
  config : Option String
  command : Command
deriving DecidableEq, Repr

namespace CommandLine

/-- A number that fits into 64 bits; a plus sign may be in front of it. -/
def count? (s : String) : Option Nat :=
  let digits := match s.toList with
    | '+' :: rest => rest
    | cs => cs
  if digits.isEmpty || !digits.all Char.isDigit then none
  else
    let n := digits.foldl (fun n d => n * 10 + (d.toNat - 48)) 0
    if n < Nat.pow 2 64 then some n else none

/-- The names of the commands. -/
inductive CommandName where
  | index | update | search | list | delete | serve | tools
deriving DecidableEq, Repr

namespace CommandName

def all : List CommandName := [index, update, search, list, delete, serve, tools]

def text : CommandName → String
  | index => "index"
  | update => "update"
  | search => "search"
  | list => "list"
  | delete => "delete"
  | serve => "serve"
  | tools => "tools"

def ofText? (s : String) : Option CommandName := all.find? (·.text == s)

end CommandName

/-- Options that every command has. -/
def commonOptions : List OptionRule := [
  ⟨"config", some 'c', .value, (· != "")⟩,
  ⟨"version", some 'V', .version, fun _ => true⟩,
  ⟨"help", some 'h', .help, fun _ => true⟩]

/-- Options of one command. -/
def ownOptions : CommandName → List OptionRule
  | .index => [⟨"exclude", some 'x', .values, fun _ => true⟩]
  | .update => [⟨"force-full", none, .switch, fun _ => true⟩]
  | .search => [
    ⟨"project-id", some 'p', .value, fun _ => true⟩,
    ⟨"limit", some 'l', .value, fun s => (count? s).isSome⟩]
  | .tools => [⟨"openai", none, .switch, fun _ => true⟩]
  | .list | .delete | .serve => []

/-- The operands of a command. A path may not be empty. -/
def operandsOf : CommandName → List OperandRule
  | .index => [⟨"path", false, (· != "")⟩]
  | .update | .delete => [⟨"id", true, fun _ => true⟩]
  | .search => [⟨"query", true, fun _ => true⟩]
  | .list | .serve | .tools => []

/-- The command of what has been read for its name. -/
def commandOf (r : Reading) : CommandName → Command
  | .index => .index (r.value? "path") (r.values "exclude")
  | .update => .update ((r.value? "id").getD "") (r.has "force-full")
  | .search => .search ((r.value? "query").getD "") (r.value? "project-id")
      (((r.value? "limit").bind count?).getD 10)
  | .list => .list
  | .delete => .delete ((r.value? "id").getD "")
  | .serve => .serve
  | .tools => .tools (r.has "openai")

/-- Why there is nothing to do but to tell something: the interruption, and the command that was
being read. -/
structure Notice where
  interruption : Interruption
  command : Option CommandName
deriving DecidableEq, Repr

/-- Gives an interruption the command that was being read. -/
def during {α : Type} (command : Option CommandName) (a : Except Interruption α) :
    Except Notice α :=
  a.mapError (⟨·, command⟩)

/-- Reads arguments. A configuration that is told behind the command counts, not one in front of
it. -/
def parse (words : List String) : Except Notice Invocation := do
  let isCommand (s : String) := (CommandName.ofText? s).isSome
  let (front, rest) ← during none
    (Reading.readUntil commonOptions isCommand { operands := [] } words)
  match rest.bind fun (word, words) => (CommandName.ofText? word).map (·, words) with
  | none => throw ⟨.misuse, none⟩
  | some (name, words) =>
    let rules := commonOptions ++ ownOptions name
    let own ← during (some name) (Reading.readAll rules (operandsOf name) words)
    let front ← during none front.settle
    return ⟨own.value? "config" <|> front.value? "config", commandOf own name⟩

end CommandLine

end CodeAtlas
