import CodeAtlas.Text.Blank
/-!
The languages whose sources are indexed, and the file extensions that tell them.
-/

namespace CodeAtlas

inductive Language where
  | python | javascript | typescript | tsx | go | java
deriving DecidableEq, Repr

namespace Language

def all : List Language := [python, javascript, typescript, tsx, go, java]

def name : Language → String
  | python => "python"
  | javascript => "javascript"
  | typescript => "typescript"
  | tsx => "tsx"
  | go => "go"
  | java => "java"

/-- The extensions of a language's files, without the point. -/
def extensions : Language → List String
  | python => ["py"]
  | javascript => ["js", "jsx", "mjs", "cjs"]
  | typescript => ["ts"]
  | tsx => ["tsx"]
  | go => ["go"]
  | java => ["java"]

def ofName? (s : String) : Option Language := all.find? (·.name == s)

/-- The language of files with this extension, in any case of ASCII letters. -/
def ofExtension? (extension : String) : Option Language :=
  all.find? (·.extensions.contains (Text.lowerAscii extension))

/-- Every extension with its language. -/
def extensionTable : List (String × Language) :=
  all.flatMap fun l => l.extensions.map (·, l)

/-- The language of files with this extension, which may begin with points. -/
def ofDottedExtension? (extension : String) : Option Language :=
  ofExtension? (Text.trimLeftWhile (· == '.') extension)

end Language

end CodeAtlas
