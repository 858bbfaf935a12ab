import CodeAtlas.Outline.Comment
import CodeAtlas.Symbol
/-!
The functions and classes of an ECMAScript source, of any dialect.

Function declarations and methods count, and of function expressions those that a variable or a
class field is bound to. A member belongs to the class whose body it stands in directly or inside
expressions; the body of a function starts afresh.
-/

namespace CodeAtlas.Script

open Outline (blockText decoratorName signature)

/-- A node with its surroundings: its preceding siblings, nearest first, and its ancestors,
innermost first, each with its own preceding siblings. -/
structure Spot where
  node : Tree
  before : List Tree
  above : List (Tree × List Tree)

namespace Spot

/-- The node around. -/
def parent? (c : Spot) : Option Spot :=
  match c.above with
  | (t, before) :: above => some ⟨t, before, above⟩
  | [] => none

def parentOf? (kind : Kind) (c : Spot) : Option Spot := c.parent?.filter (·.node.kind == kind)

/-- The statement that a comment in front of a definition belongs to. -/
def documented (c : Spot) : Spot :=
  let c := if c.node.kind == .variableDeclarator then c.parent?.getD c else c
  (c.parentOf? .export).getD c

end Spot

variable (src : Source)

def isClass : Kind → Bool
  | .classDefinition | .abstractClass | .classExpression => true
  | _ => false

def isFunctionValue : Kind → Bool
  | .arrowFunction | .functionExpression => true
  | _ => false

def nameOf (t : Tree) : Option String := (t.child? .name).map (·.text src)

/-- The block comment in front, if it opens with two stars; decorators may stand in between. -/
def docComment : List Tree → Option String
  | [] => none
  | t :: before =>
    match t.kind with
    | .comment =>
      let text := t.text src
      if Text.startsWith "/**" text then blockText text else none
    | .decorator => docComment before
    | _ => none

/-- Decorators directly in front of a node, inside it, and inside an export around it. -/
def decorators (c : Spot) : List String :=
  let leading := (c.before.takeWhile (·.kind == .decorator)).reverse
  let inside := c.node.children.filter (·.kind == .decorator)
  let exported := match c.parentOf? .export with
    | some p => p.node.children.filter (·.kind == .decorator)
    | none => []
  (leading ++ inside ++ exported).map (decoratorName src)

/-- The text of a type without the colon in front. -/
def typeText (t : Tree) : String :=
  Text.trim (Text.trimLeftWhile (· == ':') (Text.trim (t.text src)))

/-- Drops every run of three points from the front. -/
def dropPoints : List Char → List Char
  | '.' :: '.' :: '.' :: rest => dropPoints rest
  | cs => cs

def restParameter (t : Tree) : Parameter :=
  { name := Text.trim (.ofList (dropPoints (t.text src).toList)), isVariadic := true }

def parameter (t : Tree) : Option Parameter :=
  match t.kind with
  | .identifier | .objectPattern | .arrayPattern => some { name := t.text src }
  | .assignmentPattern => (t.child? .left).map fun left =>
      { name := left.text src, fallback := (t.child? .right).map (·.text src) }
  | .restPattern => some (restParameter src t)
  | .requiredParameter | .optionalParameter => (t.child? .pattern).map fun pattern =>
      let base :=
        if pattern.kind == .restPattern then restParameter src pattern
        else { name := pattern.text src }
      { base with
        typeText := (t.child? .type).map (typeText src)
        fallback := (t.child? .value).map (·.text src) }
  | _ => none

def parameters (t : Tree) : List Parameter :=
  match t.child? .parameters with
  | some list => list.namedChildren.filterMap (parameter src)
  | none => ((t.child? .parameter).map fun p => { name := p.text src }).toList

/-- The record of the function `t`, bound or declared by `anchor`, inside the class `owner`. -/
def functionRecord (name : String) (owner : Option String) (anchor : Spot) (t : Tree) :
    FunctionRecord := {
  name, line := anchor.node.startLine src, endLine := t.endLine src
  signature := signature src anchor.node (t.child? .body)
  parameters := parameters src t
  returnType := (t.child? .result).map (typeText src)
  docstring := docComment src anchor.documented.before
  isAsync := t.hasChild .asyncWord
  isMethod := owner.isSome, parentClass := owner
  decorators := decorators src anchor }

/-- What binds the value of a variable or of a field to a name: its place, the name, and whether
it is a field. -/
def binding (c : Spot) : Option (Spot × String × Bool) :=
  match c.parent? with
  | none => none
  | some p =>
    if (p.node.kind == .variableDeclarator || p.node.kind == .field) && c.node.role == some .value
    then match p.node.child? .name with
      | some name =>
        if name.kind == .identifier || name.kind == .propertyName || name.kind == .privateName
        then some (p, name.text src, p.node.kind == .field)
        else none
      | none => none
    else none

/-- The name of a class: its own, or that of the variable it is the value of. -/
def className (c : Spot) : Option String :=
  (nameOf src c.node).or ((c.parentOf? .variableDeclarator).bind fun p => nameOf src p.node)

mutual
/-- The names in the clauses of a class head, type arguments left out. -/
def heritageIn : Tree → List String
  | .node kind role start stop children =>
    match kind with
    | .extendsClause | .implementsClause | .classHeritage => heritageInAll children
    | .typeArguments | .comment | .token => []
    | _ =>
      match Text.trim (Text.before (· == '<') ((Tree.node kind role start stop children).text src))
      with
      | "" => []
      | base => [base]

def heritageInAll : List Tree → List String
  | [] => []
  | t :: ts => heritageIn t ++ heritageInAll ts
end

/-- The methods of a class body, and the fields that hold functions. -/
def methodNames (t : Tree) : List String :=
  match t.child? .body with
  | none => []
  | some body => body.namedChildren.filterMap fun (member : Tree) =>
    match member.kind with
    | .methodDefinition => nameOf src member
    | .field =>
      if (member.child? .value).any (isFunctionValue ·.kind) then nameOf src member else none
    | _ => none

def classRecord (c : Spot) : Option ClassRecord :=
  (className src c).map fun name =>
    let anchor :=
      if c.node.kind == .classExpression then (c.parentOf? .variableDeclarator).getD c else c
    { name, line := c.node.startLine src, endLine := c.node.endLine src
      parents := ((c.node.children.find? (·.kind == .classHeritage)).map (heritageIn src)).getD []
      docstring := docComment src anchor.documented.before
      methods := methodNames src c.node
      decorators := decorators src c }

mutual
/-- The functions of a tree in source order, inside the class `owner`. -/
def functionsIn (owner : Option String) (before : List Tree) (above : List (Tree × List Tree)) :
    Tree → List FunctionRecord
  | .node kind role start stop children =>
    let t := Tree.node kind role start stop children
    let spot : Spot := ⟨t, before, above⟩
    let inside := (t, before) :: above
    match kind with
    | .functionDefinition | .generatorDeclaration =>
      ((nameOf src t).map fun name => functionRecord src name none spot t).toList ++
        functionsInBody none [] inside children
    | .methodDefinition =>
      ((nameOf src t).map fun name => functionRecord src name owner spot t).toList ++
        functionsInBody none [] inside children
    | .arrowFunction | .functionExpression =>
      ((binding src spot).map fun (anchor, name, isField) =>
        functionRecord src name (if isField then owner else none) anchor t).toList ++
        functionsInBody none [] inside children
    | .classDefinition | .abstractClass | .classExpression =>
      functionsInBody (className src spot) [] inside children
    | _ => functionsInAll owner [] inside children

/-- The functions of the first child that is a body. -/
def functionsInBody (owner : Option String) (before : List Tree)
    (above : List (Tree × List Tree)) : List Tree → List FunctionRecord
  | [] => []
  | t :: ts =>
    if t.role == some .body then functionsIn owner before above t
    else functionsInBody owner (t :: before) above ts

def functionsInAll (owner : Option String) (before : List Tree)
    (above : List (Tree × List Tree)) : List Tree → List FunctionRecord
  | [] => []
  | t :: ts => functionsIn owner before above t ++ functionsInAll owner (t :: before) above ts
end

mutual
/-- The classes of a tree in source order. -/
def classesIn (before : List Tree) (above : List (Tree × List Tree)) : Tree → List ClassRecord
  | .node kind role start stop children =>
    let t := Tree.node kind role start stop children
    (if isClass kind then (classRecord src ⟨t, before, above⟩).toList else []) ++
      classesInAll [] ((t, before) :: above) children

def classesInAll (before : List Tree) (above : List (Tree × List Tree)) :
    List Tree → List ClassRecord
  | [] => []
  | t :: ts => classesIn before above t ++ classesInAll (t :: before) above ts
end

/-- The symbols of a script or module. -/
def outline (t : Tree) : Outline := ⟨functionsIn src none [] [] t, classesIn src [] [] t⟩

end CodeAtlas.Script
