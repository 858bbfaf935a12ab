import CodeAtlas.Json.Basic
/-!
JSON texts of values: `compact` without blanks, `pretty` with two spaces a level.
-/

namespace CodeAtlas.Json

/-- The digits of a number below sixteen, in lower case. -/
def hexDigit (n : Nat) : Char := (Nat.digitChar (n % 16))

/-- The characters that stand for one character between quotes. Only the quote, the backslash and
control characters are escaped. -/
def escapeChar (c : Char) : List Char :=
  match c with
  | '"' => ['\\', '"']
  | '\\' => ['\\', '\\']
  | '\n' => ['\\', 'n']
  | '\r' => ['\\', 'r']
  | '\t' => ['\\', 't']
  | '\x08' => ['\\', 'b']
  | '\x0c' => ['\\', 'f']
  | c =>
    if c.toNat < 0x20 then ['\\', 'u', '0', '0', hexDigit (c.toNat / 16), hexDigit c.toNat]
    else [c]

def quote (s : String) : String := "\"" ++ .ofList (s.toList.flatMap escapeChar) ++ "\""

mutual
/-- The text of a value without blanks. -/
def compact : Json → String
  | null => "null"
  | bool b => if b then "true" else "false"
  | int n => toString n
  | float x => if x.isFinite then x.render else "null"
  | str s => quote s
  | arr items => "[" ++ ",".intercalate (compactItems items) ++ "]"
  | obj entries => "\x7b" ++ ",".intercalate (compactEntries entries) ++ "\x7d"

def compactItems : List Json → List String
  | [] => []
  | x :: xs => compact x :: compactItems xs

def compactEntries : List (String × Json) → List String
  | [] => []
  | (k, x) :: xs => (quote k ++ ":" ++ compact x) :: compactEntries xs
end

/-- Spaces in front of a line of the level. -/
def margin (level : Nat) : String := .ofList (List.replicate (2 * level) ' ')

mutual
/-- The text of a value with one line an item, at a level of nesting. -/
def prettyAt (level : Nat) : Json → String
  | arr [] => "[]"
  | arr items =>
    "[\n" ++ ",\n".intercalate (prettyItems (level + 1) items) ++ "\n" ++ margin level ++ "]"
  | obj [] => "\x7b\x7d"
  | obj entries =>
    "\x7b\n" ++ ",\n".intercalate (prettyEntries (level + 1) entries) ++ "\n" ++ margin level ++
      "\x7d"
  | null => "null"
  | bool b => if b then "true" else "false"
  | int n => toString n
  | float x => if x.isFinite then x.render else "null"
  | str s => quote s

def prettyItems (level : Nat) : List Json → List String
  | [] => []
  | x :: xs => (margin level ++ prettyAt level x) :: prettyItems level xs

def prettyEntries (level : Nat) : List (String × Json) → List String
  | [] => []
  | (k, x) :: xs =>
    (margin level ++ quote k ++ ": " ++ prettyAt level x) :: prettyEntries level xs
end

/-- The text of a value with two spaces a level. -/
def pretty (j : Json) : String := prettyAt 0 j

end CodeAtlas.Json
