import CodeAtlas.Error
import CodeAtlas.Tool.Basic
import CodeAtlas.Uuid
/-!
Calls of tools, and how they are read from a name and arguments. Whatever is wrong with the
arguments is found before anything is done.
-/

namespace CodeAtlas

/-- A tool with arguments that are fit for it. -/
inductive ToolCall where
  | index (path : String) (patterns : List String)
  | update (project : Uuid) (force : Bool)
  | search (query : String) (project : Option Uuid) (limit : Nat)
  | list
  | delete (project : Uuid)
deriving DecidableEq, Repr

namespace ToolCall

/-- Why a call is none. -/
inductive Defect where
  | unknownTool (name : String)
  | missing (parameter : String)
  | badProject (text : String)
deriving DecidableEq, Repr

def Defect.message : Defect → String
  | unknownTool name => "Unknown tool: " ++ name
  | missing parameter => "Missing '" ++ parameter ++ "' parameter"
  | badProject text => "Invalid project ID: " ++ text

/-- A text that has to be there and may not be blank. -/
def requiredText (args : Json) (key : String) : Except Defect String :=
  match args.getStr? key with
  | some s => if Text.isAllBlank s then .error (.missing key) else .ok s
  | none => .error (.missing key)

/-- The id of a project; there may be blanks around it. -/
def projectOf (text : String) : Except Defect Uuid :=
  match Uuid.parse? (Text.trim text) with
  | some id => .ok id
  | none => .error (.badProject text)

/-- The project that is to be searched. A blank text stands for all of them. -/
def scopeOf (args : Json) : Except Defect (Option Uuid) :=
  match args.getStr? "project_id" with
  | some s => if Text.isAllBlank s then .ok none else (projectOf s).map some
  | none => .ok none

/-- How many hits are asked for, within what may be asked for. -/
def limitOf (args : Json) : Nat :=
  match args.getNat? "limit" with
  | some n => max 1 (min n Tool.maxHits)
  | none => Tool.usualHits

/-- The texts of a list; what is no text is left out. -/
def textsOf (args : Json) (key : String) : List String := ((args.get? key).map Json.strs).getD []

/-- The call of a tool with arguments. -/
def ofArguments (args : Json) : Tool → Except Defect ToolCall
  | .index => do return index (← requiredText args "path") (textsOf args "exclude_patterns")
  | .update => do
    let id ← projectOf (← requiredText args "project_id")
    return update id ((args.getBool? "force_full").getD false)
  | .search => do
    let query ← requiredText args "query"
    return search query (← scopeOf args) (limitOf args)
  | .list => return list
  | .delete => do return delete (← projectOf (← requiredText args "project_id"))

/-- The call of the tool of a name with arguments. -/
def parse (name : String) (args : Json) : Except Defect ToolCall :=
  match Tool.ofName? name with
  | some t => ofArguments args t
  | none => .error (.unknownTool name)

/-- Searches always ask for one hit at least, and not for too many. -/
theorem limitOf_bounds (args : Json) : 1 ≤ limitOf args ∧ limitOf args ≤ Tool.maxHits := by
  unfold limitOf
  split
  · simp only [Tool.maxHits]; omega
  · simp [Tool.usualHits, Tool.maxHits]

end ToolCall

end CodeAtlas
