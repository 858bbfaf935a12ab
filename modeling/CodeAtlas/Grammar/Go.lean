import CodeAtlas.Syntax.Reading
/-!
The grammar of Go. A line end closes a statement if the lexeme in front of it may be the last of
one, except between parentheses, between brackets and in the values of composite literals.
-/

namespace CodeAtlas.Go

/-- Blank space and comments from `i` on, and whether a line ends outside of a comment. -/
def skipTrivia (src : Source) : Nat → Nat → Bool → List Tree → Nat × Bool × List Tree
  | 0, i, broken, comments => (i, broken, comments.reverse)
  | fuel + 1, i, broken, comments =>
    match src[i]? with
    | some '\n' => skipTrivia src fuel (i + 1) true comments
    | some '/' =>
      match src[i + 1]? with
      | some '/' =>
        let stop := Lexeme.endOfRun (· != '\n') src i
        skipTrivia src fuel stop broken (.leaf .comment i stop :: comments)
      | some '*' =>
        match Lexeme.find? ['*', '/'] src (src.size - i) (i + 2) with
        | some j => skipTrivia src fuel (j + 2) broken (.leaf .comment i (j + 2) :: comments)
        | none => (i, broken, comments.reverse)
      | _ => (i, broken, comments.reverse)
    | some c =>
      if Text.isBlank c then skipTrivia src fuel (i + 1) broken comments
      else (i, broken, comments.reverse)
    | none => (i, broken, comments.reverse)

def isNamePart (c : Char) : Bool := c != '$' && Lexeme.isWordPart c

/-- The start of the word that ends at the offset. -/
def wordStart (src : Source) : Nat → Nat
  | 0 => 0
  | i + 1 =>
    match src[i]? with
    | some c => if isNamePart c then wordStart src i else i + 1
    | none => i + 1

/-- The words that open something and so never end a statement. -/
def opening : List (List Char) :=
  ["case", "chan", "const", "default", "defer", "else", "for", "func", "go", "goto", "if",
    "import", "interface", "map", "package", "range", "select", "struct", "switch", "type",
    "var"].map String.toList

def reserved : List (List Char) :=
  opening ++ ["break", "continue", "fallthrough", "return"].map String.toList

/-- Whether the lexeme that ends at the offset may be the last of a statement. -/
def mayEnd (src : Source) (stop : Nat) : Bool :=
  match src[stop - 1]? with
  | none => false
  | some c =>
    if c == ')' || c == ']' || c == '\x7d' || c == '"' || c == '\'' || c == '`' then true
    else if isNamePart c then
      let start := wordStart src stop
      !opening.any fun w => w.length == stop - start && Lexeme.standsAt src start w
    else (c == '+' || c == '-') && stop ≥ 2 && src[stop - 2]? == some c

def trivia : Trivia := fun src stop indents =>
  let (next, broken, comments) := skipTrivia src (src.size - stop + 1) stop false []
  ⟨stop, next, broken && mayEnd src stop, comments, indents⟩

/-- A line end that closes a statement. -/
def lineEnd (_ : Source) (p : Place) : Option (List Tree × Place) :=
  if p.broken then some ([], { p with broken := false }) else none

/-- The end of the source closes a statement as well. -/
def sourceEnd (src : Source) (p : Place) : Option (List Tree × Place) :=
  if p.next ≥ src.size then some ([], p) else none

def name : Lexeme := Lexeme.wordExcept Lexeme.isWordStart isNamePart reserved

def rawString : Lexeme := fun src i =>
  if src[i]? == some '`' then
    (Lexeme.find? ['`'] src (src.size - i) (i + 1)).map (· + 1)
  else none

def stringLiteral : Lexeme := Lexeme.anyOf [Lexeme.quoted '"' false, rawString]

inductive Rule where
  | topLevel | declaration | typeSpec | importSpec
  | statement | statements | block | simple (header : Bool) | caseClause | arm
  | parameters | parameter | result | typeParameters
  | type | typeArguments | union | field | method
  | expressions (header : Bool) | expression (header : Bool) | operand (header : Bool)
  | primary (header : Bool) | atom | argument | arguments | literalValue | element

open Pattern

abbrev P := Pattern Rule

def identifier : P := token .identifier name

def stop : P := alt ";" (layout lineEnd)

def separated (p : P) : P := seq (opt (sepBy1 (many1 stop) p)) (many stop)

def braced (p : P) : P := lines true (all ["\x7b", p, "\x7d"])

/-- One specification, or several between parentheses. -/
def grouped (p : P) : P := alt p (lines true (all ["(", separated p, ")"]))

def parenthesized (p : P) : P := seq "(" (lines false (seq p ")"))

def bracketed (p : P) : P := seq "[" (lines false (seq p "]"))

def typeExpressions : P := sepBy1 "," (.call (.expression false))

def binaryOperator : P := oneOf [
  "&&", "||", "==", "!=", "<=", ">=", op "<<" "=", op ">>" "=", op "&^" "=", op "<" "-=",
  op ">" "=", op "+" "+=", op "-" "-=", op "|" "=", op "^" "=", op "*" "=",
  op "/" "=", op "%" "=", op "&" "="]

def assigningOperator : P := oneOf [
  ":=", op "=" "=", "+=", "-=", "*=", "/=", "%=", "&=", "|=", "^=", "<<=", ">>=", "&^="]

def expressionRule (h : Bool) : P :=
  extend .expression (.call (.operand h)) (many1 (seq binaryOperator (.call (.operand h))))

def operandRule (h : Bool) : P := oneOf [
  node .expression (seq (oneOf ["!", op "+" "+=", op "-" "-=", op "^" "=", "*", op "&" "&=^", "<-"])
    (.call (.operand h))),
  .call (.primary h)]

def primaryRule (h : Bool) : P := grow (.call .atom) (oneOf [
  node .other (all [".", parenthesized (oneOf ["type", .call .type])]),
  node .other (seq "." identifier),
  node .other (.call .arguments),
  node .other (bracketed (oneOf [
    all [opt (.call (.expression false)), ":", opt (.call (.expression false)),
      opt (seq ":" (opt (.call (.expression false))))],
    all [sepBy1 "," (.call .argument), opt ","]])),
  if h then never else node .other (.call .literalValue)])

def simpleRule (h : Bool) : P := node .expressionStatement (all [.call (.expressions h),
  opt (oneOf [seq assigningOperator (.call (.expressions h)),
    seq "<-" (.call (.expression h)), "++", "--"])])

def atomRule : P := oneOf [
  node .other (all ["func", .call .parameters, opt (.call .result), .call .block]),
  node .other (seq (seq (bracketed "...") (.call .type)) (.call .literalValue)),
  node .other (all [peek (oneOf ["[", "map", "struct"]), .call .type, .call .literalValue]),
  node .other (all [peek (oneOf ["[", "map", "struct", "interface", "chan", "func"]),
    .call .type, .call .arguments]),
  token .string stringLiteral,
  token .other (Lexeme.quoted '\'' false),
  token .other Lexeme.number,
  identifier,
  node .expression (parenthesized (oneOf [.call (.expression false), .call .type]))]

def rule : Rule → P
  | .topLevel => oneOf [
      node .other (all ["package", identifier]),
      node .other (all ["import", grouped (.call .importSpec)]),
      node .functionDefinition (all ["func", inRole .name identifier,
        opt (.call .typeParameters), inRole .parameters (.call .parameters),
        opt (inRole .result (.call .result)), opt (inRole .body (.call .block))]),
      node .methodDeclaration (all ["func", inRole .receiver (.call .parameters),
        inRole .name identifier, inRole .parameters (.call .parameters),
        opt (inRole .result (.call .result)), opt (inRole .body (.call .block))]),
      .call .statement]
  | .importSpec => node .other (seq (opt (oneOf [".", identifier])) (token .string stringLiteral))
  | .declaration => oneOf [
      node .other (seq "const" (grouped (node .other (all [sepBy1 "," identifier,
        opt (seq (opt (.call .type)) (seq (op "=" "=") (.call (.expressions false))))])))),
      node .other (seq "var" (grouped (node .other (all [sepBy1 "," identifier, oneOf [
        seq (op "=" "=") (.call (.expressions false)),
        seq (.call .type) (opt (seq (op "=" "=") (.call (.expressions false))))]])))),
      node .typeDeclaration (seq "type" (grouped (.call .typeSpec)))]
  | .typeSpec => oneOf [
      node .other (all [identifier, opt (.call .typeParameters), op "=" "=", .call .type]),
      node .typeSpec (all [inRole .name identifier, .call .typeParameters,
        inRole .type (.call .type)]),
      node .typeSpec (all [inRole .name identifier, inRole .type (.call .type)])]
  | .statement => oneOf [
      .call .declaration,
      node .other (seq "return" (opt (.call (.expressions false)))),
      node .other (seq "go" (.call (.expression false))),
      node .other (seq "defer" (.call (.expression false))),
      node .other (all ["if", opt (seq (opt (.call (.simple true))) ";"), .call (.expression true),
        .call .block,
        opt (seq "else" (oneOf [.call .block, seq (peek "if") (.call .statement)]))]),
      node .other (all ["for", oneOf [
          seq (oneOf [
            all [opt (seq (.call (.expressions true)) (oneOf [":=", op "=" "="])), "range",
              .call (.expression true)],
            all [opt (.call (.simple true)), ";", opt (.call (.expression true)), ";",
              opt (.call (.simple true))],
            .call (.expression true)]) (.call .block),
          .call .block]]),
      node .other (all ["switch",
        opt (seq (opt (.call (.simple true))) ";"), opt (.call (.simple true)),
        braced (many (.call .caseClause))]),
      node .other (all ["select", braced (many (.call .caseClause))]),
      node .other "fallthrough",
      node .other (seq "break" (opt identifier)),
      node .other (seq "continue" (opt identifier)),
      node .other (seq "goto" identifier),
      .call .block,
      node .other (all [identifier, op ":" "=", opt (layout lineEnd), opt (.call .statement)]),
      .call (.simple false)]
  | .statements => all [many stop, separated (.call .statement)]
  | .block => node .block (braced (.call .statements))
  | .caseClause => node .other (all [
      oneOf [
        seq "case" (sepBy1 "," (.call .arm)),
        "default"],
      op ":" "=", .call .statements])
  | .arm => oneOf [
      seq (.call (.simple false)) (peek (oneOf [",", ":"])),
      .call .type]
  | .parameters => node .parameters (parenthesized (seq
      (opt (sepBy1 "," (.call .parameter))) (opt ",")))
  | .parameter => oneOf [
      node .variadicParameter (all [opt (inRole .name identifier), "...",
        inRole .type (.call .type)]),
      node .requiredParameter (seq (sepBy1 "," (inRole .name identifier))
        (inRole .type (.call .type))),
      node .requiredParameter (inRole .type (.call .type))]
  | .result => oneOf [.call .parameters, .call .type]
  | .typeParameters => node .other (bracketed (seq
      (sepBy1 "," (node .other (seq (sepBy1 "," identifier) (.call .union)))) (opt ",")))
  | .union => node .other (sepBy1 "|" (seq (opt "~") (.call .type)))
  | .typeArguments => node .typeArguments (bracketed (seq (sepBy1 "," (.call .union)) (opt ",")))
  | .type => oneOf [
      node .structType (seq "struct"
        (node .fieldList (braced (separated (.call .field))))),
      node .other (seq "interface" (braced (separated (oneOf [
        .call .method, .call .union])))),
      node .other (seq "*" (.call .type)),
      node .other (seq (bracketed empty) (.call .type)),
      node .other (seq (bracketed (.call (.expression false))) (.call .type)),
      node .other (all ["map", bracketed (.call .type), .call .type]),
      node .other (all ["chan", opt "<-", .call .type]),
      node .other (all ["<-", "chan", .call .type]),
      node .other (all ["func", .call .parameters, opt (.call .result)]),
      node .other (parenthesized (.call .type)),
      extend .other (extend .other identifier (seq "." identifier)) (.call .typeArguments)]
  | .method => node .other (all [identifier, .call .parameters, opt (.call .result)])
  | .field => node .field (all [
      oneOf [
        seq (sepBy1 "," (inRole .name identifier)) (inRole .type (.call .type)),
        seq (opt "*") (inRole .type (extend .other (extend .other identifier (seq "." identifier))
          (.call .typeArguments)))],
      opt (token .string stringLiteral)])
  | .expressions h => extend .expression (.call (.expression h))
      (many1 (seq "," (.call (.expression h))))
  | .expression true => expressionRule true
  | .expression false => expressionRule false
  | .operand true => operandRule true
  | .operand false => operandRule false
  | .primary true => primaryRule true
  | .primary false => primaryRule false
  | .atom => atomRule
  | .simple true => simpleRule true
  | .simple false => simpleRule false
  | .argument => oneOf [
      seq (.call (.expression false)) (peek (oneOf [",", ")", "...", "]"])),
      .call .type]
  | .arguments => node .arguments (parenthesized (seq
      (opt (sepBy1 "," (seq (.call .argument) (opt "...")))) (opt ",")))
  | .literalValue => node .other (seq "\x7b" (lines false (all [
      opt (sepBy1 "," (seq (.call .element) (opt (seq ":" (.call .element))))), opt ",", "\x7d"])))
  | .element => oneOf [.call .literalValue, .call (.expression false)]

/-- The grammar of Go. -/
def grammar : Grammar Rule := ⟨rule, trivia, true⟩

/-- Declarations and statements, each closed by a line end. Only a declaration of types may not
be closed by the end of the source. -/
def sourceFile : P := seq (many stop) (seq
  (many (oneOf [
    seq (.call .topLevel) (many1 stop),
    all [avoid "type", .call .topLevel, layout sourceEnd]])) empty)

/-- The tree of a source file. Where only the line end behind the last declaration is missing, the
file is at fault from its beginning on. -/
def parse (src : Source) : Tree :=
  let tree := grammar.parse sourceFile src
  if tree.hasError && !(grammar.parse sourceFile (src.push '\n')).hasError then
    .node .root none 0 src.size [.leaf .error 0 0]
  else tree

end CodeAtlas.Go
