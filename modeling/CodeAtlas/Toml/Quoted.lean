import CodeAtlas.Json.Reader
import CodeAtlas.Toml.Basic
/-!
The four forms of quoted text. One and three double quotes enclose text with escapes, one and three
single quotes text as it is; with three quotes a text may have several lines.
-/

namespace CodeAtlas.Toml

/-- A text that has been read, and what follows it. -/
abbrev Scanned := Option (List Char × List Char)

/-- Puts a character in front of the text that has been read. -/
def Scanned.cons (c : Char) (s : Scanned) : Scanned := s.map fun (text, rest) => (c :: text, rest)

/-- The character of hexadecimal digits; the halves of a pair are no characters. -/
def hexChar? (digits : List Char) : Option Char := do
  let values ← digits.mapM Json.hexValue?
  let n := values.foldl (fun n d => n * 16 + d) 0
  if n < 0xD800 || (0xDFFF < n && n ≤ 0x10FFFF) then some (Char.ofNat n) else none

/-- The character of a letter behind a backslash. -/
def escaped? : Char → Option Char
  | 'b' => some '\x08'
  | 't' => some '\t'
  | 'n' => some '\n'
  | 'f' => some '\x0c'
  | 'r' => some '\r'
  | '"' => some '"'
  | '\\' => some '\\'
  | _ => none

/-- The rest of a text in double quotes. -/
def readBasic : List Char → Scanned
  | '"' :: rest => some ([], rest)
  | '\\' :: 'u' :: a :: b :: c :: d :: rest => do
    Scanned.cons (← hexChar? [a, b, c, d]) (readBasic rest)
  | '\\' :: 'U' :: a :: b :: c :: d :: e :: f :: g :: h :: rest => do
    Scanned.cons (← hexChar? [a, b, c, d, e, f, g, h]) (readBasic rest)
  | '\\' :: c :: rest => do Scanned.cons (← escaped? c) (readBasic rest)
  | c :: rest => if isPlain c then Scanned.cons c (readBasic rest) else none
  | [] => none

/-- The rest of a text in single quotes. -/
def readLiteral : List Char → Scanned
  | '\'' :: rest => some ([], rest)
  | c :: rest => if isPlain c then Scanned.cons c (readLiteral rest) else none
  | [] => none

/-- Whether nothing but blanks is left of the line. -/
def endsLine : List Char → Bool
  | '\n' :: _ => true
  | '\r' :: '\n' :: _ => true
  | c :: rest => isBlank c && endsLine rest
  | [] => false

/-- The rest of a text in three double quotes. Up to two of the quotes at its end belong to it. A
backslash at the end of a line joins the lines: then blanks and line ends are left out, which
`joining` says. -/
def readLongBasic : Bool → List Char → Scanned
  | _, '"' :: '"' :: '"' :: '"' :: '"' :: rest => some (['"', '"'], rest)
  | _, '"' :: '"' :: '"' :: '"' :: rest => some (['"'], rest)
  | _, '"' :: '"' :: '"' :: rest => some ([], rest)
  | joining, '\r' :: '\n' :: rest =>
    if joining then readLongBasic true rest else Scanned.cons '\n' (readLongBasic false rest)
  | _, '\\' :: 'u' :: a :: b :: c :: d :: rest => do
    Scanned.cons (← hexChar? [a, b, c, d]) (readLongBasic false rest)
  | _, '\\' :: 'U' :: a :: b :: c :: d :: e :: f :: g :: h :: rest => do
    Scanned.cons (← hexChar? [a, b, c, d, e, f, g, h]) (readLongBasic false rest)
  | _, '\\' :: c :: rest =>
    if endsLine (c :: rest) then readLongBasic true rest
    else do Scanned.cons (← escaped? c) (readLongBasic false rest)
  | joining, c :: rest =>
    if joining && (isBlank c || c == '\n') then readLongBasic true rest
    else if isPlain c || c == '\n' then Scanned.cons c (readLongBasic false rest)
    else none
  | _, [] => none

/-- The rest of a text in three single quotes. Up to two of the quotes at its end belong to
it. -/
def readLongLiteral : List Char → Scanned
  | '\'' :: '\'' :: '\'' :: '\'' :: '\'' :: rest => some (['\'', '\''], rest)
  | '\'' :: '\'' :: '\'' :: '\'' :: rest => some (['\''], rest)
  | '\'' :: '\'' :: '\'' :: rest => some ([], rest)
  | '\r' :: '\n' :: rest => Scanned.cons '\n' (readLongLiteral rest)
  | c :: rest =>
    if isPlain c || c == '\n' then Scanned.cons c (readLongLiteral rest) else none
  | [] => none

/-- A line end right behind three quotes does not belong to the text. -/
def skipLineEnd : List Char → List Char
  | '\n' :: rest => rest
  | '\r' :: '\n' :: rest => rest
  | cs => cs

/-- A quoted text. -/
def readQuoted : List Char → Scanned
  | '"' :: '"' :: '"' :: rest => readLongBasic false (skipLineEnd rest)
  | '"' :: rest => readBasic rest
  | '\'' :: '\'' :: '\'' :: rest => readLongLiteral (skipLineEnd rest)
  | '\'' :: rest => readLiteral rest
  | _ => none

/-! ## Writing -/

/-- A character between double quotes. -/
def escapeChar (long : Bool) (c : Char) : List Char :=
  match c with
  | '\x08' => ['\\', 'b']
  | '\t' => ['\\', 't']
  | '\n' => if long then ['\n'] else ['\\', 'n']
  | '\x0c' => ['\\', 'f']
  | '\r' => ['\\', 'r']
  | '"' => ['\\', '"']
  | '\\' => ['\\', '\\']
  | c =>
    if c.toNat < 0x20 || c == '\x7f' then
      ['\\', 'u', '0', '0', (Nat.digitChar (c.toNat / 16)).toUpper,
        (Nat.digitChar (c.toNat % 16)).toUpper]
    else [c]

/-- How many single quotes stand in a row at most. -/
def longestRun (run : Nat) : List Char → Nat
  | [] => run
  | c :: rest => if c == '\'' then longestRun (run + 1) rest else max run (longestRun 0 rest)

/-- Whether a text is written in single quotes: it has something that would be escaped between
double quotes, and nothing that cannot stand between single ones. -/
def fitsLiteral (cs : List Char) : Bool :=
  cs.any (fun c => c == '"' || c == '\\') && cs.all (fun c => isPlain c || c == '\n') &&
    longestRun 0 cs < 3 && cs.getLast? != some '\''

/-- A text in that form of quotes that shows it best. -/
def quote (s : String) : String :=
  let cs := s.toList
  let long := cs.contains '\n'
  if fitsLiteral cs then
    if long then "'''\n" ++ s ++ "'''"
    else if cs.contains '\'' then "'''" ++ s ++ "'''"
    else "'" ++ s ++ "'"
  else
    let body := String.ofList (cs.flatMap (escapeChar long))
    if long then "\"\"\"\n" ++ body ++ "\"\"\"" else "\"" ++ body ++ "\""

end CodeAtlas.Toml
