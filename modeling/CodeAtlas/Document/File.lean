import CodeAtlas.Document.Value
import CodeAtlas.SourceFile
import CodeAtlas.Yaml.Printer
/-!
The document about a source file: its functions and classes. What is empty or false is left out,
and so are the receivers of methods.
-/

namespace CodeAtlas

structure ParameterEntry where
  name : String
  typeText : Option String
  fallback : Option String
  isVariadic : Option Bool
deriving DecidableEq, Repr

structure FunctionEntry where
  name : String
  line : Nat
  signature : String
  parameters : Option (List ParameterEntry)
  returnType : Option String
  docstring : Option String
  isAsync : Option Bool
  parentClass : Option String
  decorators : Option (List String)
deriving DecidableEq, Repr

structure ClassEntry where
  name : String
  line : Nat
  parents : Option (List String)
  docstring : Option String
  methods : Option (List String)
  decorators : Option (List String)
deriving DecidableEq, Repr

/-- What the document tells. -/
structure FileDocument where
  path : String
  language : String
  size : Nat
  hash : String
  functions : List FunctionEntry
  classes : List ClassEntry
deriving DecidableEq, Repr

namespace FileDocument

/-- A list, unless it is empty. -/
def nonEmpty {α : Type} (items : List α) : Option (List α) :=
  if items.isEmpty then none else some items

/-- A truth, unless it is false. -/
def ifTrue (b : Bool) : Option Bool := if b then some true else none

/-- Whether a parameter has the name of a receiver. -/
def isReceiver (p : Parameter) : Bool := p.name == "self" || p.name == "cls"

def parameterEntry (p : Parameter) : ParameterEntry :=
  ⟨p.name, p.typeText, p.fallback, ifTrue p.isVariadic⟩

def functionEntry (f : FunctionRecord) : FunctionEntry where
  name := f.name
  line := f.line
  signature := f.signature
  parameters := nonEmpty ((f.parameters.filter fun p => !isReceiver p).map parameterEntry)
  returnType := f.returnType
  docstring := f.docstring
  isAsync := ifTrue f.isAsync
  parentClass := f.parentClass
  decorators := nonEmpty f.decorators

def classEntry (c : ClassRecord) : ClassEntry where
  name := c.name
  line := c.line
  parents := nonEmpty c.parents
  docstring := c.docstring
  methods := nonEmpty c.methods
  decorators := nonEmpty c.decorators

def ofFile (f : SourceFile) : FileDocument where
  path := f.path
  language := f.language
  size := f.size
  hash := f.hash
  functions := f.functions.map functionEntry
  classes := f.classes.map classEntry

/-! ## As YAML -/

def parameterYaml (p : ParameterEntry) : Yaml := .record [
  ("name", some (.str p.name)),
  ("type", some (.ofOption .str p.typeText)),
  ("default", some (.ofOption .str p.fallback)),
  ("is_variadic", p.isVariadic.map .bool)]

def functionYaml (f : FunctionEntry) : Yaml := .record [
  ("name", some (.str f.name)),
  ("line", some (.nat f.line)),
  ("signature", some (.str f.signature)),
  ("parameters", f.parameters.map fun ps => .seq (ps.map parameterYaml)),
  ("return_type", f.returnType.map .str),
  ("docstring", f.docstring.map .str),
  ("is_async", f.isAsync.map .bool),
  ("parent_class", f.parentClass.map .str),
  ("decorators", f.decorators.map .strs)]

def classYaml (c : ClassEntry) : Yaml := .record [
  ("name", some (.str c.name)),
  ("line", some (.nat c.line)),
  ("parent_classes", c.parents.map .strs),
  ("docstring", c.docstring.map .str),
  ("methods", c.methods.map .strs),
  ("decorators", c.decorators.map .strs)]

def toYaml (d : FileDocument) : Yaml := .record [
  ("file", some (.record [
    ("path", some (.str d.path)),
    ("language", some (.str d.language)),
    ("size_bytes", some (.nat d.size)),
    ("content_hash", some (.str d.hash))])),
  ("functions", some (.seq (d.functions.map functionYaml))),
  ("classes", some (.seq (d.classes.map classYaml)))]

def render (d : FileDocument) : String := d.toYaml.render

end FileDocument

end CodeAtlas
