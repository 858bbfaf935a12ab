import CodeAtlas.Yaml.Scalar
/-!
Writing YAML. A text is written plain where that reads back as the text, in single quotes where it
does not, as a block if it has several lines, and in double quotes if nothing else can show it.
-/

namespace CodeAtlas.Yaml

/-! ## The look of a text -/

/-- How a text is written. -/
inductive Style where
  | plain | single | double | literal
deriving DecidableEq, Repr

/-- What can be seen in a text that decides how it may be written. -/
structure Look where
  /-- Signs that would not be read as text. -/
  indicators : Bool := false
  breaks : Bool := false
  special : Bool := false
  leadingSpace : Bool := false
  leadingBreak : Bool := false
  trailingSpace : Bool := false
  trailingBreak : Bool := false
  /-- A line that begins with a space, the first line apart. -/
  breakSpace : Bool := false
  /-- A line that ends with a space, the last line apart. -/
  spaceBreak : Bool := false

/-- Whether the first character of a text, with what follows, would be read as a sign. -/
def isSignAtStart (c : Char) (rest : List Char) : Bool :=
  "#,[]\x7b\x7d&*!|>'\"%@\x60".toList.contains c ||
    ((c == '?' || c == ':' || c == '-') && endsWord rest)

/-- Whether a later character would be read as a sign. -/
def isSignInside (before c : Char) (rest : List Char) : Bool :=
  (c == ':' && endsWord rest) || (c == '#' && (isBlank before || isBreak before))

def hasSignInside : Char → List Char → Bool
  | _, [] => false
  | before, c :: rest => isSignInside before c rest || hasSignInside c rest

def hasSign : List Char → Bool
  | [] => false
  | '-' :: '-' :: '-' :: _ | '.' :: '.' :: '.' :: _ => true
  | c :: rest => isSignAtStart c rest || hasSignInside c rest

/-- Whether somewhere one character of a class follows one of another. -/
def hasPair (first second : Char → Bool) : List Char → Bool
  | a :: b :: rest => (first a && second b) || hasPair first second (b :: rest)
  | _ => false

def isSpace (c : Char) : Bool := c == ' '

def lookOf (cs : List Char) : Look where
  indicators := hasSign cs
  breaks := cs.any isBreak
  special := cs.any fun c => !isPrintable c
  leadingSpace := cs.head?.any isSpace
  leadingBreak := cs.head?.any isBreak
  trailingSpace := cs.getLast?.any isSpace
  trailingBreak := cs.getLast?.any isBreak
  breakSpace := hasPair isBreak isSpace cs
  spaceBreak := hasPair isSpace isBreak cs

namespace Look

def allowsPlain (l : Look) : Bool :=
  !(l.leadingSpace || l.leadingBreak || l.trailingSpace || l.trailingBreak || l.breakSpace ||
    l.spaceBreak || l.special || l.breaks || l.indicators)

def allowsSingle (l : Look) : Bool := !(l.breakSpace || l.spaceBreak || l.special)

def allowsLiteral (l : Look) : Bool := !(l.trailingSpace || l.spaceBreak || l.special)

end Look

/-- The style that a text would like. -/
def wantedStyle (s : String) : Style :=
  if s.toList.contains '\n' then .literal
  else match meaning s with
    | .text => if hasLeadingZero s.toList then .single else .plain
    | _ => .single

/-- The style of a text. -/
def styleOf (s : String) : Style :=
  let look := lookOf s.toList
  let quoted : Style := if look.allowsSingle then .single else .double
  match wantedStyle s with
  | .plain => if look.allowsPlain then .plain else quoted
  | .literal => if look.allowsLiteral then .literal else .double
  | _ => quoted

/-! ## Scalars -/

/-- Spaces in front of a line. -/
def margin (indent : Nat) : List Char := List.replicate indent ' '

/-- The lines of a text, each line but the first one indented; lines without text are not.
`fresh` says whether a line has just begun. -/
def indented (indent : Nat) : Bool → List Char → List Char
  | _, [] => []
  | fresh, c :: rest =>
    if isBreak c then c :: indented indent true rest
    else if fresh then margin indent ++ c :: indented indent false rest
    else c :: indented indent false rest

/-- A text in single quotes: a quote is written twice. -/
def renderSingle (indent : Nat) (cs : List Char) : List Char :=
  let body := indented indent false (cs.flatMap fun c => if c == '\'' then ['\'', '\''] else [c])
  '\'' :: body ++ (if cs.getLast?.any isBreak then margin indent else []) ++ ['\'']

/-- So many hexadecimal digits in upper case. -/
def hexDigits : Nat → Nat → List Char
  | 0, _ => []
  | k + 1, n => hexDigits k (n / 16) ++ [(Nat.digitChar (n % 16)).toUpper]

/-- A character in double quotes. -/
def escape (c : Char) : List Char :=
  if isPrintable c && !isBreak c && c != '"' && c != '\\' then [c]
  else match c with
    | '\x00' => ['\\', '0']
    | '\x07' => ['\\', 'a']
    | '\x08' => ['\\', 'b']
    | '\t' => ['\\', 't']
    | '\n' => ['\\', 'n']
    | '\x0b' => ['\\', 'v']
    | '\x0c' => ['\\', 'f']
    | '\r' => ['\\', 'r']
    | '\x1b' => ['\\', 'e']
    | '"' => ['\\', '"']
    | '\\' => ['\\', '\\']
    | '\u0085' => ['\\', 'N']
    | '\u2028' => ['\\', 'L']
    | '\u2029' => ['\\', 'P']
    | c =>
      let n := c.toNat
      if n ≤ 0xFF then '\\' :: 'x' :: hexDigits 2 n
      else if n ≤ 0xFFFF then '\\' :: 'u' :: hexDigits 4 n
      else '\\' :: 'U' :: hexDigits 8 n

def renderDouble (cs : List Char) : List Char := '"' :: cs.flatMap escape ++ ['"']

/-- How the line ends at the end of a block are kept: none, one, or all. -/
def chomping (cs : List Char) : List Char :=
  match cs.reverse with
  | [] => ['-']
  | last :: before =>
    if !isBreak last then ['-']
    else match before with
      | [] => ['+']
      | c :: _ => if isBreak c then ['+'] else []

/-- A text as a block. The indentation is told if the text does not show it. -/
def renderLiteral (indent : Nat) (cs : List Char) : List Char :=
  let hint := if cs.head?.any fun c => isSpace c || isBreak c then ['2'] else []
  '|' :: hint ++ chomping cs ++ '\n' :: indented indent true cs

/-- A scalar whose further lines are indented so far. -/
def renderText (indent : Nat) (s : String) : List Char :=
  match styleOf s with
  | .plain => s.toList
  | .single => renderSingle indent s.toList
  | .double => renderDouble s.toList
  | .literal => renderLiteral indent s.toList

/-! ## Collections -/

/-- Whether a key stands on one line with its value. -/
def isSimpleKey : Yaml → Bool
  | plain s => s.utf8ByteSize ≤ 128
  | str s => !s.toList.any isBreak && s.utf8ByteSize ≤ 128
  | _ => false

/-- Ends a line, if it is not ended yet. -/
def endLine (cs : List Char) : List Char := if cs.getLast?.any isBreak then cs else cs ++ ['\n']

/-- Where a value begins. -/
inductive Position where
  /-- Behind a key and a colon. -/
  | behindKey
  /-- Behind a sign at the beginning of the line. -/
  | behindSign
deriving DecidableEq, Repr

namespace Position

/-- What stands between the sign or the colon and a collection whose lines are indented so
far. -/
def lead (indent : Nat) : Position → List Char
  | behindKey => '\n' :: margin indent
  | behindSign => [' ']

/-- The indentation of a list in a collection with this indentation: a list behind a key is not
indented further. -/
def listIndent (indent : Nat) : Position → Nat
  | behindKey => indent
  | behindSign => indent + 2

end Position

mutual
/-- A value behind its key or sign, in a collection with this indentation, up to the end of its
last line. -/
def renderNode (indent : Nat) (position : Position) : Yaml → List Char
  | plain s => ' ' :: endLine s.toList
  | str s => ' ' :: endLine (renderText (indent + 2) s)
  | seq [] => " []\n".toList
  | map [] => " \x7b\x7d\n".toList
  | seq items =>
    position.lead (position.listIndent indent) ++ renderItems (position.listIndent indent) items
  | map entries => position.lead (indent + 2) ++ renderEntries (indent + 2) entries
  | tagged _ v => renderNode indent position v

/-- Items one below the other. The margin of the first one is left out. -/
def renderItems (indent : Nat) : List Yaml → List Char
  | [] => []
  | item :: rest =>
    '-' :: renderNode indent .behindSign item ++
      (if rest.isEmpty then [] else margin indent ++ renderItems indent rest)

/-- Entries one below the other. The margin of the first one is left out. -/
def renderEntries (indent : Nat) : List (Yaml × Yaml) → List Char
  | [] => []
  | (key, value) :: rest =>
    (if isSimpleKey key then
      (match key with
        | plain s => s.toList
        | str s => renderText (indent + 2) s
        | _ => []) ++ ':' :: renderNode indent .behindKey value
    else
      '?' :: renderNode indent .behindSign key ++ margin indent ++
        ':' :: renderNode indent .behindSign value) ++
      (if rest.isEmpty then [] else margin indent ++ renderEntries indent rest)
end

/-- The text of a value. -/
def render : Yaml → String
  | map (e :: es) => .ofList (renderEntries 0 (e :: es))
  | seq (i :: is) => .ofList (renderItems 0 (i :: is))
  | v => .ofList ((renderNode 0 .behindSign v).drop 1)

end CodeAtlas.Yaml
