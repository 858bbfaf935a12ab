import CodeAtlas.Syntax.Reading
/-!
The grammar of Java.
-/

namespace CodeAtlas.Java

/-- Blank space and comments from `i` on. -/
def skipTrivia (src : Source) : Nat → Nat → List Tree → Nat × List Tree
  | 0, i, comments => (i, comments.reverse)
  | fuel + 1, i, comments =>
    match src[i]? with
    | some '/' =>
      match src[i + 1]? with
      | some '/' =>
        let stop := Lexeme.endOfRun (· != '\n') src i
        skipTrivia src fuel stop (.leaf .lineComment i stop :: comments)
      | some '*' =>
        match Lexeme.find? ['*', '/'] src (src.size - i) (i + 2) with
        | some j => skipTrivia src fuel (j + 2) (.leaf .blockComment i (j + 2) :: comments)
        | none => (i, comments.reverse)
      | _ => (i, comments.reverse)
    | some c =>
      if Text.isBlank c || c == '\uFEFF' then skipTrivia src fuel (i + 1) comments
      else (i, comments.reverse)
    | none => (i, comments.reverse)

def trivia : Trivia := fun src stop indents =>
  let (next, comments) := skipTrivia src (src.size - stop + 1) stop []
  ⟨stop, next, false, comments, indents⟩

def reserved : List (List Char) :=
  ["abstract", "assert", "boolean", "break", "byte", "case", "catch", "char", "class", "const",
    "continue", "default", "do", "double", "else", "enum", "extends", "false", "final", "finally",
    "float", "for", "goto", "if", "implements", "import", "instanceof", "int", "interface", "long",
    "native", "new", "null", "package", "private", "protected", "public", "return", "short",
    "static", "strictfp", "super", "switch", "synchronized", "this", "throw", "throws",
    "transient", "true", "try", "void", "volatile", "while"].map String.toList

def isNameStart (c : Char) : Bool := c == '$' || Lexeme.isWordStart c

def name : Lexeme := Lexeme.wordExcept isNameStart Lexeme.isWordPart reserved

def textBlock : Lexeme := fun src i =>
  if Lexeme.standsAt src i ['"', '"', '"'] then
    Lexeme.quotedRest ['"', '"', '"'] true src (src.size - i) (i + 3)
  else none

def literal : Lexeme := Lexeme.anyOf [textBlock, Lexeme.quoted '"' false, Lexeme.quoted '\'' false,
  Lexeme.number, Lexeme.keyword "true".toList, Lexeme.keyword "false".toList,
  Lexeme.keyword "null".toList]

inductive Rule where
  | statement | block | declaration | method | modifiers | annotated | annotatedValue
  | classBody | member | interfaceMember | enumConstant
  | parameters | parameter | typeParameters | heritage
  | type | plainType | typeArguments | dimensions | typeList
  | declarators | declarator | initializer
  | expression | operation | operand | primary | atom | lambda | arguments | creation
  | pattern | switchBody | switchLabel

open Pattern

abbrev P := Pattern Rule

def identifier : P := token .identifier name

def qualifiedName : P := grow identifier (node .other (seq "." identifier))

def binaryOperator : P := oneOf [
  "&&", "||", "==", "!=", op "<<" "=", all [op ">>>" "="], all [op ">>" "=>"], "<=", ">=",
  op "<" "=", op ">" "=>", op "+" "=+", op "-" "=->", op "*" "=", op "/" "=", op "%" "=",
  op "&" "=&", op "|" "=|", op "^" "="]

def assigningOperator : P := oneOf [
  op "=" "=", "+=", "-=", "*=", "/=", "%=", "&=", "|=", "^=", "<<=", ">>>=", ">>="]

def parenthesized (p : P) : P := all ["(", p, ")"]

def braced (p : P) : P := all ["\x7b", p, "\x7d"]

def typeBody : P := inRole .body (.call .classBody)

def rule : Rule → P
  | .statement => oneOf [
      .call .declaration,
      .call .block,
      node .other ";",
      node .other (all ["if", parenthesized (.call .expression), .call .statement,
        opt (seq "else" (.call .statement))]),
      node .other (all ["while", parenthesized (.call .expression), .call .statement]),
      node .other (all ["for", parenthesized (oneOf [
          all [opt (.call .modifiers), .call .type, identifier, opt (.call .dimensions), op ":" ":",
            .call .expression],
          all [oneOf [all [opt (.call .modifiers), .call .type, .call .declarators, ";"],
              all [opt (sepBy1 "," (.call .expression)), ";"]],
            opt (.call .expression), ";", opt (sepBy1 "," (.call .expression))]]),
        .call .statement]),
      node .other (all ["do", .call .statement, "while", parenthesized (.call .expression), ";"]),
      node .other (all ["assert", .call .expression, opt (seq ":" (.call .expression)), ";"]),
      node .other (all ["break", opt identifier, ";"]),
      node .other (all ["continue", opt identifier, ";"]),
      node .other (all ["return", opt (.call .expression), ";"]),
      node .other (all ["throw", .call .expression, ";"]),
      node .other (all ["synchronized", parenthesized (.call .expression), .call .block]),
      node .other (all ["try",
        opt (parenthesized (seq
          (sepBy1 ";" (oneOf [
            all [opt (.call .modifiers), .call .type, identifier, op "=" "=", .call .expression],
            .call .expression]))
          (opt ";"))),
        .call .block,
        many (node .other (all ["catch", parenthesized (all [opt (.call .modifiers),
          sepBy1 "|" (.call .type), identifier]), .call .block])),
        opt (node .other (seq "finally" (.call .block)))]),
      node .other (all ["switch", parenthesized (.call .expression), .call .switchBody]),
      node .other (all ["yield", .call .expression, ";"]),
      node .other (all [identifier, op ":" ":", .call .statement]),
      node .other (all [opt (.call .modifiers), .call .type, .call .declarators, ";"]),
      node .expressionStatement (seq (.call .expression) ";")]
  | .block => node .block (braced (many (.call .statement)))
  | .declaration => oneOf [
      node .other (all [many (.call .annotated), "package", qualifiedName, ";"]),
      node .other (all ["import", opt "static", qualifiedName, opt (seq "." "*"), ";"]),
      node .other (all [many (.call .annotated), opt "open", "module", qualifiedName,
        braced (many (seq
          (many1 (oneOf [identifier, ".", ",", "with", "to", "static", "transitive"])) ";"))]),
      node .classDefinition (all [opt (.call .modifiers), "class", inRole .name identifier,
        opt (.call .typeParameters), many (.call .heritage), typeBody]),
      node .interfaceDeclaration (all [opt (.call .modifiers), "interface",
        inRole .name identifier, opt (.call .typeParameters),
        opt (node .superInterfaces (seq "extends" (.call .typeList))),
        opt (seq "permits" (.call .typeList)),
        inRole .body (node .block (braced (many (.call .interfaceMember))))]),
      node .other (all [opt (.call .modifiers), "@", "interface", inRole .name identifier,
        inRole .body (node .block (braced (many (oneOf [
          node .other (all [opt (.call .modifiers), .call .type, identifier, "(", ")",
            opt (.call .dimensions), opt (seq "default" (.call .annotatedValue)), ";"]),
          .call .interfaceMember]))))]),
      node .enumDeclaration (all [opt (.call .modifiers), "enum", inRole .name identifier,
        many (.call .heritage),
        inRole .body (node .block (braced (all [
          opt (sepBy1 "," (.call .enumConstant)), opt ",",
          opt (node .enumBody (seq ";" (many (.call .member))))])))]),
      node .recordDeclaration (all [opt (.call .modifiers), "record", inRole .name identifier,
        opt (.call .typeParameters), inRole .parameters (.call .parameters),
        many (.call .heritage), typeBody])]
  | .method => node .methodDeclaration (all [opt (.call .modifiers),
      opt (seq (.call .typeParameters) (many (.call .annotated))),
      inRole .type (.call .plainType), inRole .name identifier,
      inRole .parameters (.call .parameters), opt (.call .dimensions),
      opt (seq "throws" (sepBy1 "," (.call .type))),
      oneOf [inRole .body (.call .block), ";"]])
  | .heritage => oneOf [
      node .superclass (seq "extends" (.call .type)),
      node .superInterfaces (seq "implements" (.call .typeList)),
      node .other (seq "permits" (.call .typeList))]
  | .typeList => node .typeList (sepBy1 "," (.call .type))
  | .modifiers => node .modifiers (many1 (oneOf [.call .annotated, "public", "protected",
      "private", "abstract", "static", "final", "strictfp",
      seq "default" (avoid (oneOf [":", "->"])),
      seq "synchronized" (avoid "("), "native", "transient", "volatile",
      seq "sealed" (peek (oneOf [identifier, .call .modifiers, "class", "interface"])),
      all ["non", "-", "sealed"]]))
  | .annotated => node .annotated (all ["@", avoid "interface", qualifiedName,
      opt (parenthesized (opt (sepBy1 "," (oneOf [
        all [identifier, op "=" "=", .call .annotatedValue],
        .call .annotatedValue]))))])
  | .annotatedValue => oneOf [
      .call .annotated,
      node .other (braced (seq (opt (sepBy1 "," (.call .annotatedValue))) (opt ","))),
      .call .operation]
  | .classBody => node .block (braced (many (.call .member)))
  | .member => oneOf [
      .call .declaration,
      .call .method,
      node .constructorDeclaration (all [opt (.call .modifiers), opt (.call .typeParameters),
        inRole .name identifier, inRole .parameters (.call .parameters),
        opt (seq "throws" (sepBy1 "," (.call .type))), inRole .body (.call .block)]),
      node .other (all [opt (.call .modifiers), inRole .name identifier,
        inRole .body (.call .block)]),
      node .other (seq "static" (.call .block)),
      .call .block,
      node .field (all [opt (.call .modifiers), .call .type, .call .declarators, ";"]),
      ";"]
  | .interfaceMember => oneOf [
      .call .declaration,
      .call .method,
      node .field (all [opt (.call .modifiers), .call .type, .call .declarators, ";"]),
      ";"]
  | .enumConstant => node .other (all [opt (.call .modifiers), inRole .name identifier,
      opt (.call .arguments), opt (inRole .body (.call .classBody))])
  | .parameters => node .parameters (parenthesized (opt (sepBy1 "," (.call .parameter))))
  | .parameter => oneOf [
      node .other (all [many (.call .annotated), .call .plainType,
        many (seq identifier "."), "this"]),
      node .variadicParameter (all [opt (.call .modifiers), .call .plainType, "...",
        many (.call .annotated), .call .declarator]),
      node .requiredParameter (all [opt (.call .modifiers), inRole .type (.call .plainType),
        inRole .name identifier, opt (.call .dimensions)])]
  | .typeParameters => node .other (all ["<",
      sepBy1 "," (node .other (all [many (.call .annotated), identifier,
        opt (seq "extends" (sepBy1 "&" (.call .type)))])), ">"])
  | .type => oneOf [
      node .other (seq (many1 (.call .annotated)) (.call .plainType)),
      .call .plainType]
  | .plainType => extend .other
      (grow
        (extend .other
          (oneOf [node .other (oneOf ["void", "byte", "short", "int", "long", "char", "float",
            "double", "boolean"]), identifier])
          (.call .typeArguments))
        (node .other (all [".", many (.call .annotated), identifier, opt (.call .typeArguments)])))
      (.call .dimensions)
  | .typeArguments => node .typeArguments (all ["<",
      opt (sepBy1 "," (oneOf [
        node .other (all [many (.call .annotated), "?",
          opt (seq (oneOf ["extends", "super"]) (.call .type))]),
        .call .type])), ">"])
  | .dimensions => node .other (many1 (all [many (.call .annotated), "[", "]"]))
  | .declarators => sepBy1 "," (.call .declarator)
  | .declarator => node .variableDeclarator (all [inRole .name identifier,
      opt (.call .dimensions), opt (seq (op "=" "=") (inRole .value (.call .initializer)))])
  | .initializer => oneOf [
      node .other (braced (seq (opt (sepBy1 "," (.call .initializer))) (opt ","))),
      .call .expression]
  | .lambda => node .other (all [
      oneOf [
        identifier,
        parenthesized (opt (sepBy1 "," identifier)),
        .call .parameters],
      "->", inRole .body (oneOf [.call .block, .call .expression])])
  | .expression => oneOf [
      .call .lambda,
      extend .expression (.call .operation) (seq assigningOperator (.call .expression))]
  | .operation => extend .expression
      (extend .expression (.call .operand) (many1 (oneOf [
        seq "instanceof" (.call .pattern),
        seq binaryOperator (.call .operand)])))
      (all ["?", .call .expression, op ":" ":", oneOf [.call .lambda, .call .operation]])
  | .operand => oneOf [
      node .expression (seq (oneOf ["++", "--", op "+" "=", op "-" "=>", "!", "~"])
        (.call .operand)),
      node .expression (all ["(", oneOf ["byte", "short", "int", "long", "char", "float", "double",
        "boolean"], ")", .call .operand]),
      node .expression (all ["(", sepBy1 "&" (.call .type), ")",
        avoid (oneOf ["+", "-"]), oneOf [.call .lambda, .call .operand]]),
      extend .expression (.call .primary) (oneOf ["++", "--"])]
  | .primary => grow (.call .atom) (oneOf [
      node .other (all [".", opt (.call .typeArguments),
        oneOf [identifier, "this", "super", "class"]]),
      node .other (all [".", .call .creation]),
      node .other (.call .arguments),
      node .other (all ["[", .call .expression, "]"]),
      node .other (all ["::", opt (.call .typeArguments), oneOf [identifier, "new"]])])
  | .atom => oneOf [
      node .other (seq (.call .plainType) (oneOf [
        all ["::", opt (.call .typeArguments), oneOf [identifier, "new"]],
        seq "." "class"])),
      token .other literal,
      node .other "this", node .other "super",
      .call .creation,
      node .other (all ["switch", parenthesized (.call .expression), .call .switchBody]),
      identifier,
      node .expression (parenthesized (.call .expression))]
  | .arguments => node .arguments (parenthesized (opt (sepBy1 "," (.call .expression))))
  | .creation => node .other (all ["new", many (.call .annotated), opt (.call .typeArguments),
      oneOf [
        all [grow
            (extend .other (oneOf [identifier, node .other (oneOf ["byte", "short", "int", "long",
              "char", "float", "double", "boolean"])]) (.call .typeArguments))
            (node .other (all [".", many (.call .annotated), identifier,
              opt (.call .typeArguments)])),
          oneOf [
            all [.call .arguments, opt (inRole .body (.call .classBody))],
            all [.call .dimensions, .call .initializer],
            all [many1 (all [many (.call .annotated), "[", .call .expression, "]"]),
              opt (.call .dimensions)]]]]])
  | .pattern => node .other (all [opt (.call .modifiers), .call .type,
      opt (oneOf [
        parenthesized (opt (sepBy1 "," (.call .pattern))),
        identifier])])
  | .switchBody => node .block (braced (oneOf [
      many1 (node .other (all [.call .switchLabel, "->",
        oneOf [.call .block, node .other (all ["throw", .call .expression, ";"]),
          node .expressionStatement (seq (.call .expression) ";")]])),
      many (node .other (seq (many1 (seq (.call .switchLabel) (op ":" ":")))
        (many (.call .statement))))]))
  | .switchLabel => node .other (oneOf [
      all ["case",
        oneOf [
          all [node .other (all [opt (.call .modifiers), .call .type,
            oneOf [parenthesized (opt (sepBy1 "," (.call .pattern))), identifier],
            peek (oneOf ["when", "->", ":", ","])])],
          sepBy1 "," (oneOf ["default", .call .operation])],
        opt (seq "when" (.call .operation))],
      "default"])

/-- The grammar of Java. -/
def grammar : Grammar Rule := ⟨rule, trivia, false⟩

/-- The tree of a compilation unit. -/
def parse (src : Source) : Tree :=
  grammar.parse (many (oneOf [.call .declaration, .call .method, .call .statement])) src

end CodeAtlas.Java
