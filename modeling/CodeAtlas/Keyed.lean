import CodeAtlas.Text.Order
/-!
Finite maps with text keys, as lists of entries in the order of their keys, each key once.
-/

namespace CodeAtlas.Keyed

open scoped Text

variable {α : Type}

/-- Puts an entry at its place, instead of an entry of the same key. -/
def insert (key : String) (value : α) : List (String × α) → List (String × α)
  | [] => [(key, value)]
  | (k, v) :: rest =>
    if k < key then (k, v) :: insert key value rest
    else if key < k then (key, value) :: (k, v) :: rest
    else (key, value) :: rest

/-- The map of the entries; of entries with one key the last counts. -/
def ofList (entries : List (String × α)) : List (String × α) :=
  entries.foldl (fun acc (k, v) => insert k v acc) []

def erase (key : String) (entries : List (String × α)) : List (String × α) :=
  entries.filter (·.1 != key)

/-- The value of a key. -/
def get? (key : String) (entries : List (String × α)) : Option α :=
  (entries.find? (·.1 == key)).map (·.2)

def contains (key : String) (entries : List (String × α)) : Bool := (get? key entries).isSome

def keys (entries : List (String × α)) : List String := entries.map (·.1)

/-- The texts in order, each once. -/
def sortedSet (texts : List String) : List String := keys (ofList (texts.map (·, ())))

end CodeAtlas.Keyed
