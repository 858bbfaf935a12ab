import CodeAtlas.Error
import CodeAtlas.Text.LowerCase
/-!
The states of projects and of parsed files, by their names.
-/

namespace CodeAtlas

/-- The state of an indexed project. -/
inductive ProjectStatus where
  | indexing | active | error
deriving DecidableEq, Repr

namespace ProjectStatus

def name : ProjectStatus → String
  | indexing => "indexing"
  | active => "active"
  | error => "error"

/-- The state with exactly this name. -/
def ofName? (s : String) : Option ProjectStatus := [indexing, active, error].find? (·.name == s)

/-- Reads a state in any case. -/
def parse (s : String) : Except Failure ProjectStatus :=
  match ofName? (Text.lower s) with
  | some status => .ok status
  | none => .error (.validation ("Invalid project status: " ++ s))

theorem ofName?_name (s : ProjectStatus) : ofName? s.name = some s := by
  cases s <;> decide

end ProjectStatus

/-- The outcome of parsing a file. -/
inductive ParseStatus where
  | success
  /-- Binary content, which is not parsed. -/
  | skipped
  | error
deriving DecidableEq, Repr

namespace ParseStatus

def name : ParseStatus → String
  | success => "success"
  | skipped => "skipped"
  | error => "error"

/-- The state with exactly this name. -/
def ofName? (s : String) : Option ParseStatus := [success, skipped, error].find? (·.name == s)

/-- Reads a state in any case. -/
def parse (s : String) : Except Failure ParseStatus :=
  match ofName? (Text.lower s) with
  | some status => .ok status
  | none => .error (.validation ("Invalid parse status: " ++ s))

theorem ofName?_name (s : ParseStatus) : ofName? s.name = some s := by
  cases s <;> decide

end ParseStatus

end CodeAtlas
