import CodeAtlas.Language
import CodeAtlas.Grammar.Go
import CodeAtlas.Grammar.Java
import CodeAtlas.Grammar.Python
import CodeAtlas.Grammar.Script
import CodeAtlas.Outline.Go
import CodeAtlas.Outline.Java
import CodeAtlas.Outline.Python
import CodeAtlas.Outline.Script
import CodeAtlas.Sha256
import CodeAtlas.Status
import CodeAtlas.Text.Utf8
import CodeAtlas.Timestamp
/-!
Source files: what the index knows about one, and how it comes to know it from the bytes.
-/

namespace CodeAtlas

/-- A file of a project and its symbols. A file is told from others by its path, and its content
from others by the hash. -/
structure SourceFile where
  path : String
  language : String
  hash : String
  size : Nat
  modified : Timestamp
  status : ParseStatus := .success
  message : Option String := none
  functions : List FunctionRecord := []
  classes : List ClassRecord := []
deriving DecidableEq, Repr

namespace Language

/-- The syntax tree of a source. -/
def parse : Language → Source → Tree
  | python => Python.parse
  | javascript => Script.parse ⟨false, true⟩
  | typescript => Script.parse ⟨true, false⟩
  | tsx => Script.parse ⟨true, true⟩
  | go => Go.parse
  | java => Java.parse

/-- The symbols of a syntax tree. -/
def outline : Language → Source → Tree → Outline
  | python => Python.outline
  | javascript | typescript | tsx => Script.outline
  | go => Go.outline
  | java => Java.outline

end Language

namespace SourceFile

def symbolCount (f : SourceFile) : Nat := f.functions.length + f.classes.length

/-- Bytes with a zero among the first 8192 are no text. -/
def isBinary (bytes : ByteArray) : Bool := (bytes.extract 0 8192).toList.any (· == 0)

/-- What the bytes of a file tell. Whatever they are, there is an answer: binary content is
skipped, and a source that does not follow its grammar has an error and no symbols. -/
def ofBytes (language : Language) (path : String) (bytes : ByteArray) (modified : Timestamp) :
    SourceFile :=
  let file : SourceFile := {
    path, language := language.name, hash := Sha256.digest bytes, size := bytes.size, modified }
  if isBinary bytes then { file with status := .skipped, message := some "Binary content" }
  else
    let src : Source := (Text.decode bytes).toList.toArray
    let tree := language.parse src
    if tree.hasError then
      { file with
        status := .error
        message := some ("Syntax error near line " ++
          toString ((tree.firstErrorLine? src).getD 1)) }
    else
      let outline := language.outline src tree
      { file with functions := outline.functions, classes := outline.classes }

end SourceFile

end CodeAtlas
