import CodeAtlas.Outline.Comment
import CodeAtlas.Symbol
/-!
The methods and types of a Java source.

Classes, interfaces, enums and records count as classes. A method or constructor belongs to the
type whose body it stands in; the body of a method starts afresh.
-/

namespace CodeAtlas.Java

open Outline (blockText decoratorName signature)

variable (src : Source)

def isType : Kind → Bool
  | .classDefinition | .interfaceDeclaration | .enumDeclaration | .recordDeclaration => true
  | _ => false

def isMethod : Kind → Bool
  | .methodDeclaration | .constructorDeclaration => true
  | _ => false

def nameOf (t : Tree) : Option String := (t.child? .name).map (·.text src)

/-- The name of a type without its arguments. -/
def typeName (t : Tree) : String := Text.trim (Text.before (· == '<') (t.text src))

def annotations (t : Tree) : List String :=
  (((t.children.filter (·.kind == .modifiers)).flatMap Tree.namedChildren).filter
    (·.kind == .annotated)).map (decoratorName src)

/-- The documentation in front of a node whose preceding siblings are given, nearest first: the
nearest block comment with no other node in between, if it opens with two stars. -/
def docComment : List Tree → Option String
  | [] => none
  | t :: before =>
    match t.kind with
    | .blockComment =>
      let text := t.text src
      if Text.startsWith "/**" text then blockText text else none
    | .lineComment => docComment before
    | _ => none

def parameter (t : Tree) : Option Parameter :=
  match t.kind with
  | .requiredParameter => (t.child? .name).map fun name =>
      { name := name.text src, typeText := (t.child? .type).map (·.text src) }
  | .variadicParameter =>
    let parts := t.namedChildren
    ((parts.find? (·.kind == .variableDeclarator)).bind (·.child? .name)).map fun name =>
      { name := name.text src
        typeText := (parts.find? fun c =>
          c.kind != .modifiers && c.kind != .variableDeclarator).map (·.text src)
        isVariadic := true }
  | _ => none

def parameters (t : Tree) : List Parameter :=
  match t.child? .parameters with
  | some list => list.namedChildren.filterMap (parameter src)
  | none => []

/-- The record of a method or constructor inside the type `owner`. -/
def methodRecord (owner : Option String) (before : List Tree) (t : Tree) :
    Option FunctionRecord :=
  (nameOf src t).map fun name => {
    name, line := t.startLine src, endLine := t.endLine src
    signature := signature src t (t.child? .body)
    parameters := parameters src t
    returnType :=
      if t.kind == .methodDeclaration then (t.child? .type).map (·.text src) else none
    docstring := docComment src before
    isMethod := owner.isSome, parentClass := owner
    decorators := annotations src t }

/-- The types a type extends or implements. -/
def parents (t : Tree) : List String :=
  t.children.flatMap fun c =>
    match c.kind with
    | .superclass => c.namedChildren.map (typeName src)
    | .superInterfaces =>
      (c.namedChildren.filter (·.kind == .typeList)).flatMap fun list =>
        list.namedChildren.map (typeName src)
    | _ => []

/-- The methods a type declares itself; those of an enum stand behind its constants. -/
def methodNames (t : Tree) : List String :=
  match t.child? .body with
  | none => []
  | some body => body.namedChildren.flatMap fun (member : Tree) =>
    let members := if member.kind == .enumBody then member.namedChildren else [member]
    members.filterMap fun m => if isMethod m.kind then nameOf src m else none

def typeRecord (before : List Tree) (t : Tree) : Option ClassRecord :=
  (nameOf src t).map fun name => {
    name, line := t.startLine src, endLine := t.endLine src
    parents := parents src t
    docstring := docComment src before
    methods := methodNames src t
    decorators := annotations src t }

mutual
/-- The methods of a tree in source order; `before` are its preceding siblings. -/
def methodsIn (owner : Option String) (before : List Tree) : Tree → List FunctionRecord
  | .node kind role start stop children =>
    let t := Tree.node kind role start stop children
    if isMethod kind then
      (methodRecord src owner before t).toList ++ methodsInBody none [] children
    else if isType kind then methodsInBody (nameOf src t) [] children
    else methodsInAll owner [] children

/-- The methods of the first child that is a body. -/
def methodsInBody (owner : Option String) (before : List Tree) : List Tree → List FunctionRecord
  | [] => []
  | t :: ts =>
    if t.role == some .body then methodsIn owner before t
    else methodsInBody owner (t :: before) ts

def methodsInAll (owner : Option String) (before : List Tree) : List Tree → List FunctionRecord
  | [] => []
  | t :: ts => methodsIn owner before t ++ methodsInAll owner (t :: before) ts
end

mutual
/-- The types of a tree in source order. -/
def typesIn (before : List Tree) : Tree → List ClassRecord
  | .node kind role start stop children =>
    (if isType kind then (typeRecord src before (.node kind role start stop children)).toList
      else []) ++ typesInAll [] children

def typesInAll (before : List Tree) : List Tree → List ClassRecord
  | [] => []
  | t :: ts => typesIn before t ++ typesInAll (t :: before) ts
end

/-- The symbols of a compilation unit. -/
def outline (t : Tree) : Outline := ⟨methodsIn src none [] t, typesIn src [] t⟩

end CodeAtlas.Java
