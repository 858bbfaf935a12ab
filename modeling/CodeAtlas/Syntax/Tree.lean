import CodeAtlas.Text.Blank
/-!
Concrete syntax trees: nodes with a kind, the part they play in their parent, and the stretch of
source they cover. Comments are nodes like any other. A tree of a source that does not follow its
grammar holds a node of kind `error` or `missing`; `firstErrorLine?` names the line of the first.
-/

namespace CodeAtlas

/-- A source text by offset. -/
abbrev Source := Array Char

/-- What a node of a syntax tree stands for. Nodes that no reader of the trees tells apart share
the kind `other`; punctuation and keywords are `token`s. -/
inductive Kind where
  | root | error | missing | other | token
  | comment | lineComment | blockComment
  | asyncWord
  | identifier | propertyName | privateName | string
  | block | expression | expressionStatement
  | functionDefinition | classDefinition | decorated | decorator
  | parameters | typedParameter | defaultParameter | splat | doubleSplat
  | typeHint | attribute | arguments
  | generatorDeclaration | methodDefinition | arrowFunction | functionExpression
  | abstractClass | classExpression | classHeritage | extendsClause | implementsClause
  | typeArguments | variableDeclarator | field | export
  | objectPattern | arrayPattern | assignmentPattern | restPattern
  | requiredParameter | optionalParameter
  | methodDeclaration | constructorDeclaration | typeDeclaration | typeSpec | structType
  | fieldList | variadicParameter
  | interfaceDeclaration | enumDeclaration | recordDeclaration
  | superclass | superInterfaces | typeList | enumBody | modifiers | annotated
deriving DecidableEq, Repr

namespace Kind

def isComment : Kind → Bool
  | comment | lineComment | blockComment => true
  | _ => false

/-- Punctuation and keywords have no name of their own in a grammar. -/
def isNamed : Kind → Bool
  | token | asyncWord => false
  | _ => true

end Kind

/-- The part a node plays in its parent. -/
inductive Role where
  | name | body | parameters | parameter | result | type | value | left | right | pattern
  | property | superclasses | definition | receiver
deriving DecidableEq, Repr

/-- A concrete syntax tree. The offsets count characters of the source; the children are in the
order of the source. -/
inductive Tree where
  | node (kind : Kind) (role : Option Role) (start stop : Nat) (children : List Tree)
deriving Repr

namespace Tree

def kind : Tree → Kind
  | node k _ _ _ _ => k

def role : Tree → Option Role
  | node _ r _ _ _ => r

def start : Tree → Nat
  | node _ _ s _ _ => s

def stop : Tree → Nat
  | node _ _ _ e _ => e

def children : Tree → List Tree
  | node _ _ _ _ cs => cs

/-- The same tree in another role. -/
def withRole (r : Role) : Tree → Tree
  | node k _ s e cs => node k (some r) s e cs

/-- The children that a grammar names. -/
def namedChildren (t : Tree) : List Tree := t.children.filter (·.kind.isNamed)

/-- The first child in the role. -/
def child? (r : Role) (t : Tree) : Option Tree := t.children.find? (·.role == some r)

/-- Whether some child is of the kind. -/
def hasChild (k : Kind) (t : Tree) : Bool := t.children.any (·.kind == k)

/-- The stretch of source that the tree covers. -/
def text (src : Source) (t : Tree) : String :=
  .ofList (src.extract t.start t.stop).toList

/-- A leaf. -/
def leaf (k : Kind) (start stop : Nat) : Tree := node k none start stop []

/-- Whether the node itself marks a place where the source leaves the grammar. -/
def isFault (t : Tree) : Bool := t.kind == .error || t.kind == .missing

mutual
/-- Whether the tree holds a fault anywhere. -/
def hasError : Tree → Bool
  | node k _ _ _ cs => k == .error || k == .missing || anyHasError cs

def anyHasError : List Tree → Bool
  | [] => false
  | t :: ts => t.hasError || anyHasError ts
end

end Tree

/-- The number of the line, from one, that holds the offset. -/
def lineAt (src : Source) (offset : Nat) : Nat :=
  src.foldl (fun n c => if c == '\n' then n + 1 else n) 1 0 offset

namespace Tree

def startLine (src : Source) (t : Tree) : Nat := lineAt src t.start

def endLine (src : Source) (t : Tree) : Nat := lineAt src t.stop

mutual
/-- The line of the first fault in pre-order. Subtrees without one are passed over whole. -/
def firstErrorLine? (src : Source) : Tree → Option Nat
  | node k r s e cs =>
    if k == .error || k == .missing then some (lineAt src s)
    else if !(node k r s e cs).hasError then none
    else firstErrorLineIn? src cs

def firstErrorLineIn? (src : Source) : List Tree → Option Nat
  | [] => none
  | t :: ts => (firstErrorLine? src t).or (firstErrorLineIn? src ts)
end

end Tree

end CodeAtlas
