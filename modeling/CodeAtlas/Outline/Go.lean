import CodeAtlas.Outline.Comment
import CodeAtlas.Symbol
/-!
The functions and structs of a Go source.

A method belongs to the type of its receiver. Struct types count as classes: their parents are
the embedded fields, their methods those whose receiver has the type's name.
-/

namespace CodeAtlas.Go

open Outline (signature)

variable (src : Source)

def nameOf (t : Tree) : Option String := (t.child? .name).map (·.text src)

/-- The texts of the line comments in front of a node whose preceding siblings are given, nearest
first. -/
def commentLines : List Tree → List String
  | [] => []
  | t :: before =>
    let text := t.text src
    if t.kind == .comment && Text.startsWith "//" text then
      let line := ((Text.afterStart? "// " text).or (Text.afterStart? "//" text)).getD text
      Text.trimRight line :: commentLines before
    else []

def docComment (before : List Tree) : Option String :=
  match (commentLines src before).reverse with
  | [] => none
  | ls => some ("\n".intercalate ls)

/-- The parameters of one declaration; a declaration without a name has one, called `_`. -/
def declared (t : Tree) : List Parameter :=
  let isVariadic := t.kind == .variadicParameter
  if t.kind == .requiredParameter || isVariadic then
    let names := (t.children.filter (·.role == some .name)).map (·.text src)
    (if names.isEmpty then ["_"] else names).map fun name =>
      { name, typeText := (t.child? .type).map (·.text src), isVariadic }
  else []

def parameters (t : Tree) : List Parameter :=
  match t.child? .parameters with
  | some list => list.namedChildren.flatMap (declared src)
  | none => []

/-- The name of the receiver's type, without the star and the type parameters. -/
def receiver (t : Tree) : Option String := do
  let list ← t.child? .receiver
  let declarations := list.namedChildren.filter (·.kind == .requiredParameter)
  let type ← declarations.findSome? (·.child? .type)
  some (Text.trim (Text.before (· == '[') (Text.trimLeftWhile (· == '*') (type.text src))))

/-- The record of a function or method. -/
def functionRecord (before : List Tree) (t : Tree) : Option FunctionRecord :=
  let owner := if t.kind == .methodDeclaration then receiver src t else none
  (nameOf src t).map fun name => {
    name, line := t.startLine src, endLine := t.endLine src
    signature := signature src t (t.child? .body)
    parameters := parameters src t
    returnType := (t.child? .result).map (·.text src)
    docstring := docComment src before
    isMethod := owner.isSome, parentClass := owner }

mutual
/-- The functions of a tree in source order; `before` are its preceding siblings. -/
def functionsIn (before : List Tree) : Tree → List FunctionRecord
  | .node kind role start stop children =>
    if kind == .functionDefinition || kind == .methodDeclaration then
      (functionRecord src before (.node kind role start stop children)).toList
    else functionsInAll [] children

def functionsInAll (before : List Tree) : List Tree → List FunctionRecord
  | [] => []
  | t :: ts => functionsIn before t ++ functionsInAll (t :: before) ts
end

/-- The types embedded in a struct type. -/
def embedded (struct : Tree) : List String :=
  match struct.namedChildren.find? (·.kind == .fieldList) with
  | none => []
  | some list => list.namedChildren.filterMap fun (field : Tree) =>
    if field.kind == .field && (field.child? .name).isNone then
      (field.child? .type).map fun t => Text.trimLeftWhile (· == '*') (t.text src)
    else none

/-- The record of a struct type; `outer` are the preceding siblings of its declaration. -/
def structRecord (outer before : List Tree) (spec : Tree) : Option ClassRecord := do
  let type ← spec.child? .type
  let name ← nameOf src spec
  if spec.kind == .typeSpec && type.kind == .structType then
    some {
      name, line := spec.startLine src, endLine := spec.endLine src
      parents := embedded src type
      docstring := (docComment src before).or (docComment src outer) }
  else none

/-- The structs of one declaration. -/
def structsOf (outer before : List Tree) : List Tree → List ClassRecord
  | [] => []
  | t :: ts => (structRecord src outer before t).toList ++ structsOf outer (t :: before) ts

mutual
/-- The structs of a tree in source order, without their methods. -/
def structsIn (before : List Tree) : Tree → List ClassRecord
  | .node kind _ _ _ children =>
    if kind == .typeDeclaration then structsOf src before [] children
    else structsInAll [] children

def structsInAll (before : List Tree) : List Tree → List ClassRecord
  | [] => []
  | t :: ts => structsIn before t ++ structsInAll (t :: before) ts
end

/-- The names of the methods whose receiver has the name. -/
def methodsOf (functions : List FunctionRecord) (name : String) : List String :=
  (functions.filter (·.parentClass == some name)).map (·.name)

/-- The symbols of a source file. -/
def outline (t : Tree) : Outline :=
  let functions := functionsIn src [] t
  ⟨functions, (structsIn src [] t).map fun c => { c with methods := methodsOf functions c.name }⟩

end CodeAtlas.Go
