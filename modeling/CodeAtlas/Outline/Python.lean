import CodeAtlas.Outline.Comment
import CodeAtlas.Symbol
/-!
The functions and classes of a Python module.

A function is a method of the class whose body it stands in directly or under other statements;
the body of a function starts afresh.
-/

namespace CodeAtlas.Python

open Outline (decoratorName)

variable (src : Source)

/-- The decorators stand in the node around a definition. -/
def decoratorsAround : Option Tree → List String
  | some t =>
    if t.kind == .decorated then
      (t.namedChildren.filter (·.kind == .decorator)).map (decoratorName src)
    else []
  | none => []

/-- What stands between the quotes of a string literal, trimmed; nothing if that is blank. -/
def unquoted (literal : String) : Option String :=
  let text := Text.trimLeftWhile ("rRbBuUfF".toList.contains ·) literal
  let inner := ["\"\"\"", "'''", "\"", "'"].findSome? fun quotes =>
    (Text.afterStart? quotes text).bind (Text.beforeEnd? quotes)
  match inner.map Text.trim with
  | some "" | none => none
  | some text => some text

/-- The string literal that opens the body of a definition. -/
def docstring (t : Tree) : Option String := do
  let body ← t.child? .body
  let first ← body.namedChildren.find? (·.kind != .comment)
  let expression ←
    if first.kind == .expressionStatement then first.namedChildren.head? else none
  if expression.kind == .string then unquoted (expression.text src) else none

/-- A parameter with the stars in front of its name. -/
abbrev Starred := String × Parameter

def splat (stars : String) (t : Tree) : Option Starred :=
  (t.namedChildren.find? (·.kind == .identifier)).map fun name =>
    (stars, ({ name := name.text src, isVariadic := true } : Parameter))

def parameter (t : Tree) : Option Starred :=
  let typeText := (t.child? .type).map (·.text src)
  match t.kind with
  | .identifier => some ("", ({ name := t.text src } : Parameter))
  | .typedParameter =>
    match t.namedChildren.find? (·.kind != .typeHint) with
    | some target =>
      let found : Option Starred := match target.kind with
        | .identifier => some ("", { name := target.text src })
        | .splat => splat src "*" target
        | .doubleSplat => splat src "**" target
        | _ => none
      found.map fun (stars, p) => (stars, { p with typeText })
    | none => none
  | .defaultParameter =>
    (t.child? .name).map fun name =>
      ("", { name := name.text src, typeText, fallback := (t.child? .value).map (·.text src) })
  | .splat => splat src "*" t
  | .doubleSplat => splat src "**" t
  | _ => none

/-- The receiver of a method is no parameter. -/
def isReceiver (p : Parameter) : Bool := !p.isVariadic && (p.name == "self" || p.name == "cls")

def parameters (t : Tree) : List Starred :=
  match t.child? .parameters with
  | some list => (list.namedChildren.filterMap (parameter src)).filter fun p => !isReceiver p.2
  | none => []

def render : Starred → String
  | (stars, p) =>
    stars ++ p.name ++ ((p.typeText.map (": " ++ ·)).getD "") ++
      ((p.fallback.map (" = " ++ ·)).getD "")

def nameOf (t : Tree) : Option String := (t.child? .name).map (·.text src)

/-- The record of a function definition, inside the class `owner` and the node `around`. -/
def functionRecord (owner : Option String) (around : Option Tree) (t : Tree) :
    Option FunctionRecord :=
  match nameOf src t with
  | none | some "" => none
  | some name =>
    let isAsync := t.hasChild .asyncWord
    let ps := parameters src t
    let returnType := (t.child? .result).map (·.text src)
    some {
      name, line := t.startLine src, endLine := t.endLine src
      signature := (if isAsync then "async " else "") ++ "def " ++ name ++ "(" ++
        ", ".intercalate (ps.map render) ++ ")" ++ ((returnType.map (" -> " ++ ·)).getD "")
      parameters := ps.map (·.2)
      returnType, docstring := docstring src t, isAsync
      isMethod := owner.isSome, parentClass := owner
      decorators := decoratorsAround src around }

/-- The functions a class body holds directly. -/
def methodNames (t : Tree) : List String :=
  match t.child? .body with
  | none => []
  | some body => body.namedChildren.filterMap fun (statement : Tree) =>
    let definition : Option Tree := match statement.kind with
      | .functionDefinition => some statement
      | .decorated => (statement.child? .definition).filter (·.kind == .functionDefinition)
      | _ => none
    definition.bind (nameOf src)

def classRecord (around : Option Tree) (t : Tree) : Option ClassRecord :=
  match nameOf src t with
  | none | some "" => none
  | some name =>
    let parents := match t.child? .superclasses with
      | some list => (list.namedChildren.filter fun c =>
          c.kind == .identifier || c.kind == .attribute).map (·.text src)
      | none => []
    some {
      name, line := t.startLine src, endLine := t.endLine src, parents
      docstring := docstring src t
      methods := methodNames src t
      decorators := decoratorsAround src around }

mutual
/-- The functions of a tree in source order. -/
def functionsIn (owner : Option String) (around : Option Tree) : Tree → List FunctionRecord
  | .node kind role start stop children =>
    let t := Tree.node kind role start stop children
    match kind with
    | .functionDefinition =>
      (functionRecord src owner around t).toList ++ functionsInBody none t children
    | .classDefinition => functionsInBody (nameOf src t) t children
    | _ => functionsInAll owner t children

/-- The functions of the first child that is a body. -/
def functionsInBody (owner : Option String) (around : Tree) : List Tree → List FunctionRecord
  | [] => []
  | t :: ts =>
    if t.role == some .body then functionsIn owner (some around) t
    else functionsInBody owner around ts

def functionsInAll (owner : Option String) (around : Tree) : List Tree → List FunctionRecord
  | [] => []
  | t :: ts => functionsIn owner (some around) t ++ functionsInAll owner around ts
end

mutual
/-- The classes of a tree in source order. -/
def classesIn (around : Option Tree) : Tree → List ClassRecord
  | .node kind role start stop children =>
    let t := Tree.node kind role start stop children
    (if kind == .classDefinition then (classRecord src around t).toList else []) ++
      classesInAll t children

def classesInAll (around : Tree) : List Tree → List ClassRecord
  | [] => []
  | t :: ts => classesIn (some around) t ++ classesInAll around ts
end

/-- The symbols of a module. -/
def outline (t : Tree) : Outline := ⟨functionsIn src none none t, classesIn src none t⟩

end CodeAtlas.Python
