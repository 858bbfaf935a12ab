import CodeAtlas.Sorting
import CodeAtlas.SymbolStore.Basic
/-!
Projects in a store. Reading on which a later writing rests fails if the store fails; other reading
gives nothing then.
-/

namespace CodeAtlas.SymbolStore

def projectFilter (id : Uuid) : Filter := ⟨[.text "project_id" id.render]⟩

/-- Writes a project instead of what was known of it. -/
def storeProject (s : SymbolStore) (p : Project) : Attempt Uuid := do
  s.ensureCollection
  s.call (.upsert s.collection [⟨p.id.render, s.placeholder, .ofProject p⟩])
  return p.id

/-- The project with an id, if it is known. -/
def loadProject (s : SymbolStore) (id : Uuid) : Attempt (Option Project) := do
  let points ← orIfMissing [] (s.call (.retrieve s.collection [id.render]))
  return points.findSome? Payload.toProject?

/-- Projects are in the order of their names, and of equal ones the ids decide. -/
def comesBefore (p q : Project) : Bool :=
  p.name < q.name || (p.name == q.name && p.id.number.toNat ≤ q.id.number.toNat)

/-- All projects in order. -/
def loadProjects (s : SymbolStore) : Attempt (List Project) := do
  let points ← s.scrollAll ⟨[.text "type" "project"]⟩
  return Sorting.sort comesBefore (points.filterMap Payload.toProject?)

/-- What an attempt gives, or what stands for a failure. -/
def orDefault {α : Type} (fallback : α) (a : Attempt α) : Plan α := do
  match ← a.run with
  | .ok x => return x
  | .error _ => return fallback

def getProject (s : SymbolStore) (id : Uuid) : Plan (Option Project) :=
  orDefault none (s.loadProject id)

def listProjects (s : SymbolStore) : Plan (List Project) := orDefault [] s.loadProjects

/-- The project of a root, if it has been indexed. -/
def findByRoot (s : SymbolStore) (root : String) : Attempt (Option Project) := do
  return (← s.loadProjects).find? (·.rootPath == root)

/-- Deletes a project with its files and symbols, and tells whether it was known. -/
def deleteProject (s : SymbolStore) (id : Uuid) : Attempt Bool := do
  match ← s.loadProject id with
  | none => return false
  | some _ =>
    s.call (.delete s.collection (projectFilter id))
    return true

end CodeAtlas.SymbolStore
