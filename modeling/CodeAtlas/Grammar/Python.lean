import CodeAtlas.Syntax.Reading
/-!
The grammar of Python. Blocks are told by indentation: the three layout steps `lineEnd`, `indent`
and `dedent` read the blank space in front of the next lexeme, where line ends are otherwise
trivia.
-/

namespace CodeAtlas.Python

/-! ## Trivia and layout -/

/-- Blank space, comments and joined lines from `i` on: the offset of the next lexeme, whether a
line ends before it, and the comments. -/
def skipTrivia (src : Source) : Nat → Nat → Bool → List Tree → Nat × Bool × List Tree
  | 0, i, broken, comments => (i, broken, comments.reverse)
  | fuel + 1, i, broken, comments =>
    match src[i]? with
    | some '\n' => skipTrivia src fuel (i + 1) true comments
    | some '#' =>
      let stop := Lexeme.endOfRun (· != '\n') src i
      skipTrivia src fuel stop broken (.leaf .comment i stop :: comments)
    | some '\\' =>
      if src[i + 1]? == some '\n' then skipTrivia src fuel (i + 2) broken comments
      else if src[i + 1]? == some '\r' && src[i + 2]? == some '\n' then
        skipTrivia src fuel (i + 3) broken comments
      else (i, broken, comments.reverse)
    | some c =>
      if Text.isBlank c || c == '\uFEFF' || c == '\u2060' || c == '\u200B' then
        skipTrivia src fuel (i + 1) broken comments
      else (i, broken, comments.reverse)
    | none => (i, true, comments.reverse)

def trivia : Trivia := fun src stop indents =>
  let (next, broken, comments) := skipTrivia src (src.size - stop + 1) stop false []
  ⟨stop, next, broken, comments, indents⟩

/-- What the blank space from some offset on shows: whether a line ends before anything else
stands there, the width before the next lexeme, and the width before the first comment that has
a line of its own. -/
structure Margin where
  ended : Bool
  width : Nat
  commentWidth : Option Nat

def margin (src : Source) : Nat → Nat → Margin → Margin
  | 0, _, m => m
  | fuel + 1, i, m =>
    match src[i]? with
    | some '\n' => margin src fuel (i + 1) { m with ended := true, width := 0 }
    | some ' ' => margin src fuel (i + 1) { m with width := m.width + 1 }
    | some '\r' | some '\x0c' => margin src fuel (i + 1) { m with width := 0 }
    | some '\t' => margin src fuel (i + 1) { m with width := m.width + 8 }
    | some '#' =>
      if m.ended then
        margin src fuel (Lexeme.endOfRun (· != '\n') src i + 1)
          { m with width := 0, commentWidth := m.commentWidth.or (some m.width) }
      else m
    | some '\\' =>
      if src[i + 1]? == some '\n' then margin src fuel (i + 2) m
      else if src[i + 1]? == some '\r' && src[i + 2]? == some '\n' then margin src fuel (i + 3) m
      else m
    | some _ => m
    | none => { m with ended := true, width := 0 }

def marginAt (src : Source) (i : Nat) : Margin :=
  margin src (src.size - i + 1) i ⟨false, 0, none⟩

/-- Takes the comment that stands on the line of the last lexeme. -/
def sameLine (src : Source) (p : Place) : List Tree × Place :=
  match p.comments with
  | c :: rest =>
    if (marginAt src p.stop).ended then ([], p)
    else ([c], { p with stop := c.stop, comments := rest })
  | [] => ([], p)

/-- The end of a line. -/
def lineEnd (src : Source) (p : Place) : Option (List Tree × Place) :=
  let (kept, p) := sameLine src p
  if (marginAt src p.stop).ended then some (kept, { p with broken := false }) else none

/-- The beginning of a block that is indented further than the one around it. -/
def indent (src : Source) (p : Place) : Option (List Tree × Place) :=
  let (kept, p) := sameLine src p
  let m := marginAt src p.stop
  if m.ended && p.indents.head?.getD 0 < m.width then
    some (kept, { p with broken := false, indents := m.width :: p.indents })
  else none

/-- The end of a block of the given width, looked for behind each comment in turn: the next
lexeme is indented less, and so is the next comment with a line of its own. The comments passed
over belong to the block. -/
def dedentAfter (src : Source) (width : Nat) :
    List Tree → List Tree → Nat → Option (List Tree × Nat × List Tree)
  | comments, kept, stop =>
    let m := marginAt src stop
    if m.ended && m.width < width && m.commentWidth.all (· < width) then
      some (kept.reverse, stop, comments)
    else match comments with
      | [] => none
      | c :: rest => dedentAfter src width rest (c :: kept) c.stop

/-- The end of the innermost block. -/
def dedent (src : Source) (p : Place) : Option (List Tree × Place) :=
  match p.indents with
  | [] => none
  | width :: outer =>
    (dedentAfter src width p.comments [] p.stop).map fun (kept, stop, comments) =>
      (kept, { p with stop, comments, broken := false, indents := outer })

/-! ## Lexemes -/

def reserved : List (List Char) :=
  ["False", "None", "True", "and", "as", "assert", "break", "class", "continue", "def", "del",
    "elif", "else", "except", "finally", "for", "from", "global", "if", "import", "in", "is",
    "lambda", "nonlocal", "not", "or", "pass", "raise", "return", "try", "while", "with",
    "yield"].map String.toList

def isNameStart (c : Char) : Bool := Lexeme.isWordStart c

def isNamePart (c : Char) : Bool := c != '$' && Lexeme.isWordPart c

def name : Lexeme := Lexeme.wordExcept isNameStart isNamePart reserved

/-- What the reading of a string literal is inside of. -/
inductive Inside where
  /-- A text that ends with these quotes; whether braces in it hold expressions. -/
  | quotes (close : List Char) (formatted : Bool)
  /-- Braces that hold an expression. -/
  | braces

/-- The quotes that open at the offset, at most three of the same. -/
def openingQuotes (src : Source) (i : Nat) : Option (List Char) :=
  match src[i]? with
  | some c =>
    if c == '"' || c == '\'' then
      if Lexeme.standsAt src i [c, c, c] then some [c, c, c] else some [c]
    else none
  | none => none

/-- Whether a string with the letters of this prefix holds expressions in braces. -/
def isFormatted (src : Source) (i j : Nat) : Bool :=
  (src.extract i j).any fun c => c == 'f' || c == 'F' || c == 't' || c == 'T'

def isPrefixLetter (c : Char) : Bool := "rRbBuUfFtT".toList.contains c

/-- Where the innermost text or braces, and all around them, end. -/
def stringRest (src : Source) : Nat → List Inside → Nat → Option Nat
  | _, [], i => some i
  | 0, _, _ => none
  | fuel + 1, .quotes close formatted :: outer, i =>
    if Lexeme.standsAt src i close then stringRest src fuel outer (i + close.length)
    else match src[i]? with
      | none => none
      | some '\\' => stringRest src fuel (.quotes close formatted :: outer) (i + 2)
      | some '\x7b' =>
        if !formatted then stringRest src fuel (.quotes close formatted :: outer) (i + 1)
        else if src[i + 1]? == some '\x7b' then
          stringRest src fuel (.quotes close formatted :: outer) (i + 2)
        else stringRest src fuel (.braces :: .quotes close formatted :: outer) (i + 1)
      | some '\n' =>
        if close.length == 1 then none
        else stringRest src fuel (.quotes close formatted :: outer) (i + 1)
      | some _ => stringRest src fuel (.quotes close formatted :: outer) (i + 1)
  | fuel + 1, .braces :: outer, i =>
    match openingQuotes src i with
    | some close =>
      stringRest src fuel
        (.quotes close (i != 0 && isFormatted src (i - 1) i) :: .braces :: outer)
        (i + close.length)
    | none =>
      match src[i]? with
      | none => none
      | some '\x7d' => stringRest src fuel outer (i + 1)
      | some '\x7b' => stringRest src fuel (.braces :: .braces :: outer) (i + 1)
      | some _ => stringRest src fuel (.braces :: outer) (i + 1)

/-- A string literal with its prefix letters. -/
def stringLiteral : Lexeme := fun src i =>
  let j := Lexeme.endOfRun isPrefixLetter src i
  match openingQuotes src j with
  | some close =>
    stringRest src (src.size - j + 2) [.quotes close (isFormatted src i j)] (j + close.length)
  | none => none

/-! ## Grammar -/

inductive Rule where
  | statement | simpleStatements | simple | assignment | assigned | suite
  | elseClause | finallyClause | definition
  | parameter | lambdaParameter | typeParameters | typeHint | arguments
  | pattern | patternItem | patternList
  | expression | expressionList | element | operation | operand | primary | atom
  | callOn | itemsOf | sliceEnd | entry | elements
  | comprehension | caseClause

open Pattern

abbrev P := Pattern Rule

def identifier : P := token .identifier name

def layoutStep (step : Source → Place → Option (List Tree × Place)) : P := layout step

/-- What follows a block, unless the block around it ends first. -/
def clause (p : P) : P := seq (avoid (layout dedent)) p

/-- Between brackets line ends do not count. -/
def bracketed (opening : String) (content : P) (closing : String) : P :=
  seq (opening : P) (lines false (seq content (closing : P)))

def colon : P := op ":" "="

def binaryOperator : P :=
  oneOf ["or", "and", "in", all ["not", "in"], all ["is", "not"], "is",
    "<<", ">>", "<=", ">=", "==", "!=", "<>", "//", "**", op "<" "=<>", op ">" "=>",
    op "|" "=", op "^" "=", op "&" "=", op "+" "=", op "-" "=>", op "*" "=", op "/" "=",
    op "%" "=", op "@" "="]

/-- An operator that assigns through an operation does not stand for the operation. -/
def notAssigning (p : P) : P :=
  seq (avoid (oneOf ["<<=", ">>=", "//=", "**="])) p

def assigningOperator : P :=
  oneOf ["+=", "-=", "*=", "/=", "@=", "//=", "%=", "**=", ">>=", "<<=", "&=", "^=", "|="]

def dottedName : P := node .other (sepBy1 "." identifier)

def importedName : P := seq dottedName (opt (seq "as" identifier))

def rule : Rule → P
  | .statement => oneOf [
      node .other (all ["if", .call .expression, colon, .call .suite,
        many (clause (all ["elif", .call .expression, colon, .call .suite])),
        opt (.call .elseClause)]),
      node .other (all [opt "async", "for", .call .patternList, "in", .call .expressionList, colon,
        .call .suite, opt (.call .elseClause)]),
      node .other (all ["while", .call .expression, colon, .call .suite, opt (.call .elseClause)]),
      node .other (all ["try", colon, .call .suite,
        oneOf [
          all [many1 (clause (node .other (all ["except", opt (op "*" ""),
              opt (all [.call .expression,
                opt (seq (oneOf [",", "as"]) (.call .expression))]),
              colon, .call .suite]))),
            opt (.call .elseClause), opt (.call .finallyClause)],
          .call .finallyClause]]),
      node .other (all [opt "async", "with",
        oneOf [
          all [bracketed "(" (all [sepBy1 "," (.call .expression), opt ","]) ")", colon],
          all [sepBy1 "," (.call .expression), opt ",", colon]],
        .call .suite]),
      .call .definition,
      node .decorated (all [
        many1 (node .decorator (all ["@", .call .expression, layoutStep lineEnd])),
        inRole .definition (.call .definition)]),
      node .other (all ["match", sepBy1 "," (.call .element), opt ",", colon,
        inRole .body (node .block (oneOf [
          all [layoutStep indent, many (clause (.call .caseClause)), layoutStep dedent],
          layoutStep lineEnd]))]),
      .call .simpleStatements]
  | .caseClause =>
      node .other (all ["case", sepBy1 "," (.call .element), opt ",",
        opt (seq "if" (.call .expression)), colon, .call .suite])
  | .elseClause => clause (node .other (all ["else", colon, .call .suite]))
  | .finallyClause => clause (node .other (all ["finally", colon, .call .suite]))
  | .definition => oneOf [
      node .functionDefinition (all [opt (token .asyncWord (Lexeme.keyword "async".toList)), "def",
        inRole .name identifier, opt (.call .typeParameters),
        inRole .parameters (node .parameters (bracketed "(" (commaList (.call .parameter)) ")")),
        opt (seq "->" (inRole .result (.call .typeHint))), colon, .call .suite]),
      node .classDefinition (all ["class", inRole .name identifier, opt (.call .typeParameters),
        opt (inRole .superclasses (.call .arguments)), colon, .call .suite])]
  | .suite => inRole .body (oneOf [
      node .block (.call .simpleStatements),
      all [layoutStep indent,
        node .block (all [many1 (clause (.call .statement)), layoutStep dedent])],
      node .block (layoutStep lineEnd)])
  | .simpleStatements =>
      all [.call .simple, many (seq ";" (.call .simple)), opt ";", layoutStep lineEnd]
  | .simple => oneOf [
      node .other (seq "import" (sepBy1 "," importedName)),
      node .other (all ["from", oneOf [seq (many1 ".") (opt dottedName), dottedName], "import",
        oneOf ["*", bracketed "(" (commaList importedName) ")",
          all [sepBy1 "," importedName, opt ","]]]),
      node .other (all ["print", oneOf [
        all [">>", .call .expression, many (seq "," (.call .expression)), opt ","],
        all [peek (oneOf [token .string stringLiteral, identifier, token .other Lexeme.number]),
          sepBy1 "," (.call .expression), opt ","]]]),
      node .other (all ["exec", oneOf [token .string stringLiteral, identifier],
        opt (seq "in" (sepBy1 "," (.call .expression)))]),
      node .other (seq "assert" (sepBy1 "," (.call .expression))),
      node .other (seq "return" (opt (.call .expressionList))),
      node .other (seq "del" (.call .expressionList)),
      node .other (all ["raise", opt (.call .expressionList),
        opt (seq "from" (.call .expression))]),
      node .other "pass", node .other "break", node .other "continue",
      node .other (seq "global" (sepBy1 "," identifier)),
      node .other (seq "nonlocal" (sepBy1 "," identifier)),
      node .other (all ["type", .call .typeHint, op "=" "=", .call .typeHint]),
      node .expressionStatement (.call .assignment),
      node .expressionStatement (all [.call .element, many (seq "," (.call .element)), opt ","])]
  | .assignment => node .other (all [inRole .left (.call .patternList), oneOf [
      seq (op "=" "=") (.call .assigned),
      all [colon, inRole .type (.call .typeHint),
        opt (seq (op "=" "=") (.call .assigned))],
      seq assigningOperator (.call .assigned)]])
  | .assigned => inRole .right (oneOf [.call .assignment, .call .expressionList])
  | .patternList => group (seq (.call .patternItem)
      (opt (oneOf [seq (many1 (seq "," (.call .patternItem))) (opt ","), ","])))
  | .patternItem => oneOf [node .splat (seq (op "*" "*=") (.call .pattern)), .call .pattern]
  | .pattern => oneOf [
      node .other (seq (.call .atom) (many1 (seq (many (.call .callOn)) (.call .itemsOf)))),
      node .other (bracketed "(" (commaList (.call .patternItem)) ")"),
      node .other (bracketed "[" (commaList (.call .patternItem)) "]"),
      identifier]
  | .parameter => oneOf [
      node .defaultParameter (all [
        inRole .name (oneOf [identifier,
          node .other (bracketed "(" (commaList (.call .patternItem)) ")")]),
        opt (seq colon (inRole .type (.call .typeHint))),
        op "=" "=", inRole .value (.call .expression)]),
      node .typedParameter (all [
        oneOf [identifier, node .splat (seq (op "*" "*") identifier),
          node .doubleSplat (seq "**" identifier)],
        colon, inRole .type (.call .typeHint)]),
      node .splat (seq (op "*" "*") (.call .pattern)),
      node .doubleSplat (seq "**" (.call .pattern)),
      node .other (op "*" "*"),
      node .other "/",
      node .other (bracketed "(" (commaList (.call .patternItem)) ")"),
      identifier]
  | .lambdaParameter => oneOf [
      node .defaultParameter (all [inRole .name identifier, op "=" "=",
        inRole .value (.call .expression)]),
      node .splat (seq (op "*" "*") (opt (.call .pattern))),
      node .doubleSplat (seq "**" (.call .pattern)),
      node .other "/",
      node .other (bracketed "(" (commaList (.call .patternItem)) ")"),
      identifier]
  | .typeParameters => node .other (bracketed "[" (commaList (all [opt (oneOf ["**", "*"]),
      .call .typeHint, opt (seq colon (.call .typeHint)),
      opt (seq (op "=" "=") (.call .typeHint))])) "]")
  | .typeHint => node .typeHint (seq (opt (oneOf ["**", "*"])) (.call .expression))
  | .arguments => node .arguments (bracketed "(" (commaList (oneOf [
      node .other (all [identifier, op "=" "=", .call .expression]),
      extend .expression (.call .element) (.call .comprehension)])) ")")
  | .element => oneOf [
      node .other (seq (oneOf [op "**" "=", op "*" "*="]) (.call .expression)),
      .call .expression]
  | .expressionList => extend .expression (.call .element)
      (oneOf [all [many1 (seq "," (.call .element)), opt ","], ","])
  | .expression => oneOf [
      node .other (all ["lambda", opt (commaList (.call .lambdaParameter)), colon,
        .call .expression]),
      node .other (all ["yield", "from", .call .expression]),
      node .other (all ["yield", opt (.call .expressionList)]),
      grow (.call .operation) (node .expression (oneOf [
        all ["if", .call .operation, "else", .call .expression],
        seq "as" (.call .element),
        seq ":=" (.call .expression)]))]
  | .operation => extend .expression (.call .operand)
      (many1 (seq (notAssigning binaryOperator) (.call .operand)))
  | .operand => oneOf [
      node .expression (seq (oneOf ["not", op "-" "=>", op "+" "=", "~"]) (.call .operand)),
      node .expression (seq "await" (.call .operand)),
      node .other (all ["lambda", opt (commaList (.call .lambdaParameter)), colon,
        .call .expression]),
      .call .primary]
  | .primary => grow (.call .atom) (oneOf [
      node .attribute (seq "." identifier),
      node .other (.call .callOn),
      node .other (.call .itemsOf)])
  | .callOn => .call .arguments
  | .itemsOf => oneOf [
      seq "." identifier,
      bracketed "[" (commaList (oneOf [.call .sliceEnd,
        extend .expression (.call .element) (.call .sliceEnd)])) "]"]
  | .sliceEnd => all [colon, opt (.call .expression), opt (seq colon (opt (.call .expression)))]
  | .comprehension => many1 (oneOf [
      all [opt "async", "for", .call .patternList, "in",
        sepBy1 "," (.call .element), opt (seq "," (peek (oneOf ["]", ")", "\x7d"])))],
      seq "if" (.call .expression)])
  | .atom => oneOf [
      extend .expression (token .string stringLiteral) (many1 (token .string stringLiteral)),
      identifier,
      token .other Lexeme.number,
      node .other "None", node .other "True", node .other "False",
      node .other "...",
      node .expression (bracketed "(" (.call .elements) ")"),
      node .expression (bracketed "[" (.call .elements) "]"),
      node .expression (bracketed "\x7b" (.call .elements) "\x7d")]
  | .entry => extend .other (.call .element) (seq colon (.call .expression))
  | .elements => opt (seq (.call .entry) (oneOf [
      .call .comprehension,
      seq (many (seq "," (.call .entry))) (opt ",")]))

/-- The grammar of Python. -/
def grammar : Grammar Rule := ⟨rule, trivia, true⟩

/-- The tree of a module. -/
def parse (src : Source) : Tree := grammar.parse (many (.call .statement)) src

end CodeAtlas.Python
