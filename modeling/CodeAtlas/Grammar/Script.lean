import CodeAtlas.Syntax.Reading
/-!
The grammar of ECMAScript and of its dialects with types and with markup.
-/

namespace CodeAtlas.Script

/-- What a dialect adds to ECMAScript. -/
structure Dialect where
  types : Bool
  markup : Bool
deriving DecidableEq, Repr

/-! ## Trivia and layout -/

def isLineEnd (c : Char) : Bool := c == '\n' || c == '\r' || c == '\u2028' || c == '\u2029'

/-- Blank space and comments from `i` on, and whether a line ends there. -/
def skipTrivia (src : Source) : Nat → Nat → Bool → List Tree → Nat × Bool × List Tree
  | 0, i, broken, comments => (i, broken, comments.reverse)
  | fuel + 1, i, broken, comments =>
    match src[i]? with
    | some '/' =>
      match src[i + 1]? with
      | some '/' =>
        let stop := Lexeme.endOfRun (!isLineEnd ·) src i
        skipTrivia src fuel stop broken (.leaf .comment i stop :: comments)
      | some '*' =>
        match Lexeme.find? ['*', '/'] src (src.size - i) (i + 2) with
        | some j =>
          skipTrivia src fuel (j + 2) (broken || (src.extract i j).any isLineEnd)
            (.leaf .comment i (j + 2) :: comments)
        | none => (i, broken, comments.reverse)
      | _ => (i, broken, comments.reverse)
    | some c =>
      if isLineEnd c then skipTrivia src fuel (i + 1) true comments
      else if Text.isBlank c || c == '\uFEFF' || c == '\u2060' || c == '\u200B' then
        skipTrivia src fuel (i + 1) broken comments
      else (i, broken, comments.reverse)
    | none => (i, broken, comments.reverse)

def trivia : Trivia := fun src stop indents =>
  let (next, broken, comments) := skipTrivia src (src.size - stop + 1) stop false []
  ⟨stop, next, broken, comments, indents⟩

/-- Whether a statement goes on with the lexeme that opens a new line at the offset. -/
def goesOn (src : Source) (i : Nat) : Bool :=
  match src[i]? with
  | some '.' => !((src[i + 1]?.map Char.isDigit).getD false)
  | some '+' => src[i + 1]? != some '+'
  | some '-' => src[i + 1]? != some '-'
  | some '!' => src[i + 1]? == some '='
  | some 'i' =>
    (Lexeme.keyword "in".toList src i).isSome || (Lexeme.keyword "instanceof".toList src i).isSome
  | some c => "`,:;*%><=[(?^|&/".toList.contains c
  | none => false

/-- A semicolon that is left out: at the end of the source, in front of a closing brace, or at the
end of a line where the next one does not go on with the statement. -/
def impliedSemicolon (src : Source) (p : Place) : Option (List Tree × Place) :=
  if p.next ≥ src.size || src[p.next]? == some '\x7d' || (p.broken && !goesOn src p.next) then
    some ([], p)
  else none

/-- A member of an object type may also end where the line does. -/
def impliedSeparator (src : Source) (p : Place) : Option (List Tree × Place) :=
  if p.next ≥ src.size || src[p.next]? == some '\x7d' || p.broken then some ([], p) else none

/-- The next lexeme stands on the same line. -/
def sameLine (_ : Source) (p : Place) : Option (List Tree × Place) :=
  if p.broken then none else some ([], p)

/-! ## Lexemes -/

def reserved : List (List Char) :=
  ["break", "case", "catch", "class", "const", "continue", "debugger", "default", "delete", "do",
    "else", "enum", "export", "extends", "false", "finally", "for", "function", "if", "import",
    "in", "instanceof", "new", "null", "return", "super", "switch", "this", "throw", "true", "try",
    "typeof", "var", "void", "while", "with"].map String.toList

def isNameStart (c : Char) : Bool := c == '$' || c == '\\' || Lexeme.isWordStart c

def isNamePart (c : Char) : Bool :=
  c == '\\' || c == '\u200C' || c == '\u200D' || Lexeme.isWordPart c

def name : Lexeme := Lexeme.wordExcept isNameStart isNamePart reserved

def anyName : Lexeme := Lexeme.word isNameStart isNamePart

def privateName : Lexeme := fun src i =>
  if src[i]? == some '#' then anyName src (i + 1) else none

def stringLiteral : Lexeme := Lexeme.anyOf [Lexeme.quoted '"' false, Lexeme.quoted '\'' false]

/-- The rest of a regular expression behind its opening slash; slashes between brackets do not
close it. -/
def regexRest (src : Source) : Nat → Bool → Nat → Option Nat
  | 0, _, _ => none
  | fuel + 1, bracketed, i =>
    match src[i]? with
    | none => none
    | some '\\' =>
      if (src[i + 1]?.map isLineEnd).getD true then none else regexRest src fuel bracketed (i + 2)
    | some '[' => regexRest src fuel true (i + 1)
    | some ']' => regexRest src fuel false (i + 1)
    | some '/' => if bracketed then regexRest src fuel true (i + 1) else some (i + 1)
    | some c => if isLineEnd c then none else regexRest src fuel bracketed (i + 1)

def regex : Lexeme := fun src i =>
  if src[i]? == some '/' && src[i + 1]? != some '/' && src[i + 1]? != some '*' then
    (regexRest src (src.size - i) false (i + 1)).map fun j => Lexeme.endOfRun Char.isAlpha src j
  else none

/-- The characters of a template up to the next substitution or its end. -/
def templateRest (src : Source) : Nat → Nat → Nat
  | 0, i => i
  | fuel + 1, i =>
    match src[i]? with
    | none => i
    | some '`' => i
    | some '\\' => templateRest src fuel (i + 2)
    | some '$' => if src[i + 1]? == some '\x7b' then i else templateRest src fuel (i + 1)
    | some _ => templateRest src fuel (i + 1)

/-- Succeeds with a run that is not empty. -/
def nonEmpty (run : Source → Nat → Nat) : Lexeme := fun src i =>
  let j := run src i
  if i < j && j ≤ src.size then some j else none

def templateText : Lexeme := nonEmpty fun src i => templateRest src (src.size - i) i

def markupText : Lexeme :=
  nonEmpty (Lexeme.endOfRun fun c => c != '<' && c != '\x7b' && c != '>' && c != '\x7d')

def isTagPart (c : Char) : Bool := c == '-' || isNamePart c

def tagName : Lexeme := Lexeme.word isNameStart isTagPart

def markupString : Lexeme := fun src i =>
  match src[i]? with
  | some c =>
    if c == '"' || c == '\'' then
      (Lexeme.find? [c] src (src.size - i) (i + 1)).map (· + 1)
    else none
  | none => none

/-! ## Grammar -/

inductive Rule where
  | statement | declaration | block | export | import | declarator | variableStatement
  | expression | sequence | operand | suffixed | atom | arrow | function | classOperand | object
  | template | arguments | decorator | parameters | signature | parameter
  | pattern | binding | propertyName | classBody | member | method | heritage
  | element | elementContent | attribute | tag
  | type | typeTerm | typePrimary | typeHint | resultType | typeParameters | typeArguments
  | objectType | typeMember | ambient | interface

open Pattern

abbrev P := Pattern Rule

def identifier : P := token .identifier name

def parenthesized (p : P) : P := all ["(", p, ")"]

def braced (p : P) : P := all ["\x7b", p, "\x7d"]

def semicolon : P := alt ";" (layout impliedSemicolon)

/-- The signs that may follow the name of a member or parameter. -/
def afterName : P := oneOf ["(", ")", ",", ":", "=", ";", "\x7d", "?", "!", "<"]

/-- A word in front of a member's name, and not the name itself. -/
def modifier (s : String) : P :=
  seq s (avoid afterName)

def asyncModifier : P := seq (token .asyncWord (Lexeme.keyword "async".toList))
  (avoid afterName)

def asyncWord : P := token .asyncWord (Lexeme.keyword "async".toList)

def accessor : P := oneOf [modifier "get", modifier "set", "*"]

def assigningOperator : P := oneOf [
  op "=" "=>", "+=", "-=", "*=", "/=", "%=", "**=", "<<=", ">>>=", ">>=", "&&=", "||=", "??=", "&=",
  "|=", "^="]

def binaryOperator : P := oneOf [
  op "&&" "=", op "||" "=", op "??" "=", "===", "!==", op "==" "=", op "!=" "=", op "<<" "=",
  op ">>>" "=", op ">>" "=>", "<=", ">=", op "<" "=", op ">" "=", op "**" "=", op "+" "+=",
  op "-" "-=", op "*" "*=", op "/" "=", op "%" "=", op "&" "&=", op "|" "|=", op "^" "=",
  "in", "instanceof"]

def initializer : P := seq (op "=" "=>") (inRole .value (.call .expression))

def typeModifiers : P := many (oneOf [
  modifier "public", modifier "private", modifier "protected", modifier "static",
  modifier "override", modifier "readonly", modifier "abstract", modifier "declare",
  modifier "accessor", asyncModifier, accessor])

/-- Whichever of the two patterns the dialect calls for. -/
def typed (d : Dialect) (p q : P) : P := if d.types then p else q

def typedOpt (d : Dialect) (p : P) : P := if d.types then opt p else empty

def statementRule (d : Dialect) : P := oneOf [
  .call .export,
  .call .import,
  .call .declaration,
  .call .block,
  node .other ";",
  node .other (all ["if", parenthesized (.call .sequence), .call .statement,
    opt (node .other (seq "else" (.call .statement)))]),
  node .other (all ["switch", parenthesized (.call .sequence), braced (many (node .other (all [
    oneOf [seq "case" (.call .sequence), "default"], ":", many (.call .statement)])))]),
  node .other (all ["for", opt "await", parenthesized (oneOf [
      all [oneOf [
          seq (oneOf ["var", "let", "const"]) (all [.call .binding, opt initializer]),
          .call .suffixed, .call .binding],
        oneOf ["in", "of"], .call .sequence],
      all [oneOf [.call .variableStatement, seq (.call .sequence) ";", ";"],
        opt (.call .sequence), ";", opt (.call .sequence)]]),
    .call .statement]),
  node .other (all ["while", parenthesized (.call .sequence), .call .statement]),
  node .other (all ["do", .call .statement, "while", parenthesized (.call .sequence),
    opt semicolon]),
  node .other (all ["try", .call .block,
    opt (node .other (all ["catch",
      opt (parenthesized (seq (.call .binding) (typedOpt d (.call .typeHint)))), .call .block])),
    opt (node .other (seq "finally" (.call .block)))]),
  node .other (all ["with", parenthesized (.call .sequence), .call .statement]),
  node .other (all ["break", opt (seq (layout sameLine) identifier), semicolon]),
  node .other (all ["continue", opt (seq (layout sameLine) identifier), semicolon]),
  node .other (seq "debugger" semicolon),
  node .other (all ["return", opt (seq (layout sameLine) (.call .sequence)), semicolon]),
  node .other (all ["throw", .call .sequence, semicolon]),
  node .other (all [identifier, ":", .call .statement]),
  node .expressionStatement (seq (.call .sequence) semicolon)]

/-- A name under which something is exported or imported, with the name that it has there. -/
def exchangedName (d : Dialect) : P :=
  let names : P := sepBy1 "as" (alt (token .other anyName) (token .string stringLiteral))
  let plain : P := seq names (peek (oneOf [",", "\x7d"]))
  typed d (alt (all [alt (modifier "type") (modifier "typeof"), plain]) plain) names

/-- Names in braces. -/
def exchangedNames (d : Dialect) : P := braced (commaList (exchangedName d))

def exportRule (d : Dialect) : P := node .export (oneOf [
  all ["export", typedOpt d "type", oneOf [
    all ["*", opt (seq "as" (alt (token .other anyName) (token .string stringLiteral))), "from",
      token .string stringLiteral, opt (seq (oneOf ["with", "assert"]) (.call .object)), semicolon],
    all [exchangedNames d,
      opt (all ["from", token .string stringLiteral,
        opt (seq (oneOf ["with", "assert"]) (.call .object))]), semicolon]]],
  typed d (all ["export", op "=" "=>", .call .expression, semicolon]) never,
  typed d (all ["export", "import", identifier, op "=" "=>", sepBy1 "." identifier,
    semicolon]) never,
  typed d (all ["export", "as", "namespace", identifier, semicolon]) never,
  all [many (.call .decorator), "export", oneOf [
    seq "default" (oneOf [.call .declaration, seq (.call .expression) semicolon]),
    .call .declaration]]])

def importRule (d : Dialect) : P := node .other (oneOf [
  typed d (all ["import", opt "type", identifier, op "=" "=>", oneOf [
    seq "require" (.call .arguments), sepBy1 "." identifier], semicolon]) never,
  all ["import", typedOpt d (seq (oneOf ["type", "typeof"]) (avoid (oneOf [",", "from"]))),
    opt (seq (oneOf [
      exchangedNames d,
      all ["*", "as", identifier],
      seq identifier (opt (seq "," (oneOf [exchangedNames d, all ["*", "as", identifier]])))])
      "from"),
    token .string stringLiteral, opt (seq (oneOf ["with", "assert"]) (.call .object)), semicolon]])

def declarationRule (d : Dialect) : P := oneOf [
  node .functionDefinition (all [opt asyncWord, "function", avoid "*", inRole .name identifier,
    .call .signature, inRole .body (.call .block)]),
  node .generatorDeclaration (all [opt asyncWord, "function", "*", inRole .name identifier,
    .call .signature, inRole .body (.call .block)]),
  node .classDefinition (all [many (.call .decorator), "class", inRole .name identifier,
    typedOpt d (.call .typeParameters), opt (.call .heritage), inRole .body (.call .classBody)]),
  .call .variableStatement,
  typed d (.call .ambient) never]

def ambientRule : P := oneOf [
  node .other (all [opt asyncWord, "function", opt "*", inRole .name identifier, .call .signature,
    alt semicolon (layout impliedSeparator)]),
  node .abstractClass (all [many (.call .decorator), "abstract", "class", inRole .name identifier,
    opt (.call .typeParameters), opt (.call .heritage), inRole .body (.call .classBody)]),
  .call .interface,
  node .other (all [opt "const", "enum", identifier, braced (commaList (node .other (all [
    .call .propertyName, opt initializer])))]),
  node .other (all ["type", layout sameLine, identifier, opt (.call .typeParameters), op "=" "=>",
    .call .type, semicolon]),
  node .other (all [oneOf ["namespace", "module"],
    alt (token .string stringLiteral) (sepBy1 "." identifier),
    oneOf [inRole .body (.call .block), semicolon]]),
  node .other (all ["declare", layout sameLine, oneOf [
    seq "global" (.call .block), .call .declaration]])]

def operandRule (d : Dialect) : P := oneOf [
  .call .arrow,
  node .expression (seq
    (oneOf ["typeof", "void", "delete", "++", "--", op "+" "=", op "-" "=", "!", "~"])
    (.call .operand)),
  node .expression (seq "await" (.call .operand)),
  node .expression (seq "yield" (oneOf [
    all [layout sameLine, "*", .call .expression],
    all [layout sameLine, .call .expression],
    avoid (oneOf ["=", ".", "("])])),
  if d.types && !d.markup then
    node .expression (all ["<", .call .type, ">", .call .operand])
  else never,
  extend .expression (.call .suffixed) (seq (layout sameLine) (oneOf ["++", "--"]))]

def suffixedRule (d : Dialect) : P := grow
  (oneOf [
    node .expression (all ["new", ".", identifier]),
    node .expression (seq "new" (.call .suffixed)),
    .call .atom])
  (oneOf [
    node .other (seq (op "." ".") (alt (token .propertyName anyName)
      (token .privateName privateName))),
    node .other (seq (op "?." "0123456789") (oneOf [
      token .propertyName anyName, token .privateName privateName, .call .arguments,
      all ["[", .call .sequence, "]"],
      typed d (seq (.call .typeArguments) (.call .arguments)) never])),
    node .other (all ["[", .call .sequence, "]"]),
    node .other (.call .arguments),
    node .other (.call .template),
    typed d (node .other (all [layout sameLine, op "!" "="])) never,
    typed d (node .other (seq (.call .typeArguments) (oneOf [
      .call .arguments, .call .template,
      peek (oneOf [")", "]", "\x7d", ",", ";", ":"])]))) never])

def atomRule (d : Dialect) : P := oneOf [
  .call .function,
  .call .classOperand,
  token .string stringLiteral,
  .call .template,
  token .other Lexeme.number,
  .call .object,
  node .expression (all ["[", many (alt "," (seq (opt "...") (.call .expression))), "]"]),
  node .expression (parenthesized (seq (.call .sequence) (typedOpt d (.call .typeHint)))),
  node .other "this", node .other "super", node .other "null", node .other "true",
  node .other "false",
  node .other (seq "import" (peek (oneOf ["(", "."]))),
  if d.markup then .call .element else never,
  token .other regex,
  token .privateName privateName,
  identifier]

def arrowRule (d : Dialect) : P := node .arrowFunction (all [
  oneOf [
    all [asyncWord, layout sameLine, alt (inRole .parameter identifier) (.call .signature),
      peek "=>"],
    seq (inRole .parameter identifier) (peek "=>"),
    seq (peek (typed d (alt "(" "<") "(")) (.call .signature)],
  "=>", inRole .body (oneOf [.call .block, .call .expression])])

def classRule (d : Dialect) : P := node .classExpression (all [many (.call .decorator), "class",
  opt (inRole .name identifier), typedOpt d (.call .typeParameters), opt (.call .heritage),
  inRole .body (.call .classBody)])

def heritageRule (d : Dialect) : P := node .classHeritage (typed d
  (oneOf [
    seq (node .extendsClause (seq "extends" (sepBy1 "," (seq (.call .suffixed)
      (opt (.call .typeArguments))))))
      (opt (node .implementsClause (seq "implements" (sepBy1 "," (.call .type))))),
    node .implementsClause (seq "implements" (sepBy1 "," (.call .type)))])
  (seq "extends" (.call .suffixed)))

def memberRule (d : Dialect) : P := typed d
  (oneOf [
    all [many (.call .decorator), .call .method, opt ";"],
    node .other (all ["static", inRole .body (.call .block)]),
    all [many (.call .decorator), node .other (all [typeModifiers, .call .propertyName,
      opt (op "?" ""), .call .signature]),
      oneOf [semicolon, ",", layout impliedSeparator]],
    seq (node .other (all [typeModifiers, "[", identifier, ":", .call .type, "]", .call .typeHint]))
      (oneOf [semicolon, ","]),
    seq (node .field (all [many (.call .decorator), typeModifiers,
      inRole .name (.call .propertyName), opt (oneOf [op "?" "", op "!" "="]),
      opt (inRole .type (.call .typeHint)), opt initializer]))
      (oneOf [semicolon, ","]),
    ";"])
  (oneOf [
    seq (.call .method) (opt ";"),
    node .other (all ["static", inRole .body (.call .block)]),
    seq (node .field (all [many (.call .decorator), opt (modifier "static"),
      opt (modifier "accessor"), inRole .name (.call .propertyName), opt initializer])) semicolon,
    ";"])

def methodRule (d : Dialect) : P := node .methodDefinition (typed d
  (all [typeModifiers, inRole .name (.call .propertyName), opt (op "?" ""), .call .signature,
    inRole .body (.call .block)])
  (all [many (.call .decorator), opt (modifier "static"), opt asyncModifier, opt accessor,
    inRole .name (.call .propertyName), .call .signature, inRole .body (.call .block)]))

def parameterRule (d : Dialect) : P := typed d
  (oneOf [
    node .optionalParameter (all [many (.call .decorator), typeModifiers,
      inRole .pattern (alt (.call .pattern) (node .other "this")), op "?" "",
      opt (inRole .type (.call .typeHint)), opt initializer]),
    node .requiredParameter (all [many (.call .decorator), typeModifiers,
      inRole .pattern (alt (.call .pattern) (node .other "this")),
      opt (inRole .type (.call .typeHint)), opt initializer])])
  (oneOf [
    node .assignmentPattern (all [inRole .left (.call .pattern), op "=" "=>",
      inRole .right (.call .expression)]),
    .call .pattern])

def typeMemberRule : P := node .other (oneOf [
  all [opt (oneOf [op "+" "", op "-" ""]), opt (modifier "readonly"), "[", identifier, "in",
    .call .type, opt (seq "as" (.call .type)), "]", opt (oneOf [op "+" "", op "-" ""]),
    opt (op "?" ""), opt (.call .typeHint)],
  all [opt (modifier "readonly"), "[", identifier, ":", .call .type, "]", .call .typeHint],
  all ["new", .call .signature],
  .call .signature,
  all [typeModifiers, .call .propertyName, opt (op "?" ""), .call .signature],
  all [typeModifiers, .call .propertyName, opt (op "?" ""), opt (.call .typeHint)]])

def typePrimaryRule : P := oneOf [
  node .other (all [opt "abstract", opt "new", opt (.call .typeParameters), .call .parameters, "=>",
    .call .resultType]),
  node .other (parenthesized (.call .type)),
  .call .objectType,
  node .other (all ["[", commaList (all [opt "...", oneOf [
    all [token .other anyName, opt (op "?" ""), ":", .call .type],
    seq (.call .type) (opt (op "?" ""))]]), "]"]),
  token .string stringLiteral,
  node .other (seq (opt (op "-" "")) (token .other Lexeme.number)),
  .call .template,
  node .other (all ["typeof", oneOf [
    all ["import", .call .arguments], node .other "this", identifier],
    many (seq "." (alt (token .other anyName) (token .privateName privateName))),
    opt (.call .typeArguments)]),
  node .other (all ["import", "(", .call .type, ")", many (seq "." identifier),
    opt (.call .typeArguments)]),
  node .other (oneOf ["void", "null", "true", "false", "this"]),
  extend .other (extend .other identifier (many1 (seq (op "." ".") (token .other anyName))))
    (.call .typeArguments)]

/-- The pattern of each nonterminal in a dialect. -/
def rule (d : Dialect) : Rule → P
  | .statement => statementRule d
  | .declaration => declarationRule d
  | .block => node .block (braced (many (.call .statement)))
  | .export => exportRule d
  | .import => importRule d
  | .variableStatement => node .other (all [
      oneOf ["const" , seq "let" (peek (oneOf [identifier, "[", "\x7b"])), "var"],
      sepBy1 "," (.call .declarator), semicolon])
  | .declarator => node .variableDeclarator (all [inRole .name (.call .binding),
      typedOpt d (op "!" "="), typedOpt d (inRole .type (.call .typeHint)), opt initializer])
  | .expression => extend .expression (.call .operand) (many1 (oneOf [
      seq assigningOperator (.call .expression),
      seq binaryOperator (.call .operand),
      all [op "?" ".", .call .expression, ":", .call .expression],
      typed d (all [layout sameLine, oneOf ["as", "satisfies"], alt "const" (.call .type)]) never]))
  | .sequence => extend .expression (.call .expression) (many1 (seq "," (.call .expression)))
  | .operand => operandRule d
  | .suffixed => suffixedRule d
  | .atom => atomRule d
  | .arrow => arrowRule d
  | .function => oneOf [
      node .functionExpression (all [opt asyncWord, "function", avoid "*",
        opt (inRole .name identifier), .call .signature, inRole .body (.call .block)]),
      node .other (all [opt asyncWord, "function", "*", opt (inRole .name identifier),
        .call .signature, inRole .body (.call .block)])]
  | .classOperand => classRule d
  | .object => node .expression (braced (commaList (oneOf [
      .call .method,
      node .other (all [.call .propertyName, ":", inRole .value (.call .expression)]),
      node .other (seq "..." (.call .expression)),
      extend .other identifier (seq (op "=" "=>") (.call .expression))])))
  | .template => node .other (all ["`",
      many (oneOf [adjoined .other templateText,
        node .other (all [adjoined .token (Lexeme.sign ['$', '\x7b'] []),
          alt (.call .sequence) (typed d (.call .type) never), "\x7d"])]),
      adjoined .token (Lexeme.sign ['`'] [])])
  | .arguments => node .arguments (parenthesized (many (alt ","
      (seq (opt "...") (.call .expression)))))
  | .decorator => node .decorator (seq "@" (oneOf [
      parenthesized (.call .expression),
      grow identifier (oneOf [
        node .other (seq "." (token .propertyName anyName)),
        node .other (.call .arguments),
        typed d (node .other (seq (.call .typeArguments) (.call .arguments))) never])]))
  | .signature => all [typedOpt d (.call .typeParameters), inRole .parameters (.call .parameters),
      typedOpt d (inRole .result (node .typeHint (seq ":" (.call .resultType))))]
  | .parameters => node .parameters (parenthesized (commaList (.call .parameter)))
  | .parameter => parameterRule d
  | .pattern => oneOf [
      node .restPattern (seq "..." (.call .binding)),
      .call .binding]
  | .binding => oneOf [
      node .objectPattern (braced (commaList (oneOf [
        node .restPattern (seq "..." (.call .binding)),
        node .other (all [.call .propertyName, ":", extend .assignmentPattern (.call .binding)
          (seq (op "=" "=>") (.call .expression))]),
        extend .other identifier (seq (op "=" "=>") (.call .expression))]))),
      node .arrayPattern (all ["[", many (alt "," (extend .assignmentPattern (.call .pattern)
        (seq (op "=" "=>") (.call .expression)))), "]"]),
      identifier]
  | .propertyName => oneOf [
      token .propertyName anyName,
      token .privateName privateName,
      token .string stringLiteral,
      token .other Lexeme.number,
      node .other (all ["[", .call .expression, "]"])]
  | .classBody => node .block (braced (many (.call .member)))
  | .member => memberRule d
  | .method => methodRule d
  | .heritage => heritageRule d
  | .tag => sepBy1 (alt "." ":") (token .other tagName)
  | .attribute => oneOf [
      node .other (braced (seq "..." (.call .expression))),
      node .other (seq (sepBy1 ":" (token .other tagName)) (opt (seq "=" (oneOf [
        token .string markupString,
        node .other (braced (opt (.call .sequence))),
        .call .element]))))]
  | .element => node .other (oneOf [
      all ["<", .call .tag, typedOpt d (.call .typeArguments), many (.call .attribute),
        oneOf [seq "/" ">",
          all [">", .call .elementContent, "<", "/", .call .tag, ">"]]],
      all ["<", ">", .call .elementContent, "<", "/", ">"]])
  | .elementContent => many (oneOf [
      adjoined .other markupText,
      .call .element,
      node .other (braced (opt (seq (opt "...") (.call .sequence))))])
  | .type => extend .other (.call .typeTerm)
      (all ["extends", .call .type, op "?" "", .call .type, ":", .call .type])
  | .typeTerm => extend .other
      (seq (opt (oneOf [op "|" "|", op "&" "&"])) (.call .typePrimary))
      (many1 (seq (oneOf [op "|" "|", op "&" "&"]) (.call .typePrimary)))
  | .typePrimary => oneOf [
      node .other (seq (oneOf ["keyof", "unique", "readonly"]) (.call .typePrimary)),
      node .other (seq "infer"
        (seq identifier (opt (all ["extends", .call .typeTerm, avoid "?"])))),
      grow typePrimaryRule (oneOf [
        node .other (all [layout sameLine, "[", "]"]),
        node .other (all [layout sameLine, "[", .call .type, "]"])])]
  | .typeHint => node .typeHint (seq ":" (.call .type))
  | .resultType => oneOf [
      all ["asserts", alt identifier (node .other "this"), opt (seq "is" (.call .type))],
      all [alt identifier (node .other "this"), "is", .call .type],
      .call .type]
  | .typeParameters => node .other (all ["<", sepBy1 "," (all [
      many (oneOf ["const", modifier "in", modifier "out"]), identifier,
      opt (seq "extends" (.call .type)), opt (seq (op "=" "=>") (.call .type))]), opt ",", ">"])
  | .typeArguments =>
    node .typeArguments (all [op "<" "<=", sepBy1 "," (.call .type), opt ",", ">"])
  | .objectType => node .other (braced (seq (opt (oneOf [",", ";"])) (many (seq (.call .typeMember)
      (oneOf [";", ",", layout impliedSeparator])))))
  | .typeMember => typeMemberRule
  | .ambient => ambientRule
  | .interface => node .interfaceDeclaration (all ["interface", inRole .name identifier,
      opt (.call .typeParameters), opt (seq "extends" (sepBy1 "," (.call .type))),
      .call .objectType])

/-- A line that names the program to run a script with. -/
def shebang : Lexeme := fun src i =>
  if i == 0 && Lexeme.standsAt src 0 ['#', '!'] then some (Lexeme.endOfRun (!isLineEnd ·) src 0)
  else none

/-- The grammar of a dialect. -/
def grammar (d : Dialect) : Grammar Rule := ⟨rule d, trivia, false⟩

/-- The tree of a script or module. -/
def parse (d : Dialect) (src : Source) : Tree :=
  (grammar d).parse (seq (opt (token .other shebang)) (many (.call .statement))) src

end CodeAtlas.Script
