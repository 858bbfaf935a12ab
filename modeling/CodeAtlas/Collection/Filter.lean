import CodeAtlas.Collection.Point
/-!
Filters: conditions on payloads that all have to hold.
-/

namespace CodeAtlas

/-- A condition on the value of a key. -/
inductive Condition where
  | equals (key : String) (value : Json)
  | oneOf (key : String) (values : List Json)

/-- Conditions that all have to hold. Without conditions everything matches. -/
structure Filter where
  must : List Condition

namespace Condition

def holds (payload : Payload) : Condition → Bool
  | equals key value => (payload.get? key).any (· == value)
  | oneOf key values => (payload.get? key).any fun v => values.any (· == v)

def toJson : Condition → Json
  | equals key value =>
    .ofEntries [("key", .str key), ("match", .ofEntries [("value", value)])]
  | oneOf key values =>
    .ofEntries [("key", .str key), ("match", .ofEntries [("any", .arr values)])]

/-- The condition that a key has this text. -/
def text (key value : String) : Condition := equals key (.str value)

/-- The condition that a key has one of these texts. -/
def oneOfTexts (key : String) (values : List String) : Condition := oneOf key (values.map .str)

end Condition

namespace Filter

def isEmpty (f : Filter) : Bool := f.must.isEmpty

def accepts (f : Filter) (payload : Payload) : Bool := f.must.all (·.holds payload)

def toJson (f : Filter) : Json := .ofEntries [("must", .arr (f.must.map Condition.toJson))]

end Filter

end CodeAtlas
