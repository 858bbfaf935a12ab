/-!
What an index keeps of a source: functions and classes, each with its place and its surroundings.
-/

namespace CodeAtlas

/-- A parameter of a function. -/
structure Parameter where
  name : String
  typeText : Option String := none
  fallback : Option String := none
  isVariadic : Bool := false
deriving DecidableEq, Repr

/-- A function or method. Lines count from one, and both ends belong to it. -/
structure FunctionRecord where
  name : String
  line : Nat
  endLine : Nat
  signature : String := ""
  parameters : List Parameter := []
  returnType : Option String := none
  docstring : Option String := none
  isAsync : Bool := false
  isMethod : Bool := false
  parentClass : Option String := none
  decorators : List String := []
deriving DecidableEq, Repr

/-- A class, or what comes closest to one in the language. -/
structure ClassRecord where
  name : String
  line : Nat
  endLine : Nat
  parents : List String := []
  docstring : Option String := none
  methods : List String := []
  decorators : List String := []
deriving DecidableEq, Repr

/-- The symbols of one source. -/
structure Outline where
  functions : List FunctionRecord
  classes : List ClassRecord
deriving DecidableEq, Repr

end CodeAtlas
