import CodeAtlas.Text.Blank
import CodeAtlas.Syntax.Tree
/-!
Lexemes: where a piece of source that starts at a given offset ends. A lexeme never looks behind
its offset.
-/

namespace CodeAtlas

/-- Where the lexeme that starts at the offset ends; `none` if none starts there. -/
abbrev Lexeme := Source → Nat → Option Nat

namespace Lexeme

/-- Whether `cs` stands at the offset. -/
def standsAt (src : Source) : Nat → List Char → Bool
  | _, [] => true
  | i, c :: cs => src[i]? == some c && standsAt src (i + 1) cs

/-- The first offset from `i` on, at most `fuel` further, whose character is not in the class. -/
def skipWhile (p : Char → Bool) (src : Source) : Nat → Nat → Nat
  | 0, i => i
  | fuel + 1, i =>
    match src[i]? with
    | some c => if p c then skipWhile p src fuel (i + 1) else i
    | none => i

/-- The end of the run of characters of the class that starts at `i`. -/
def endOfRun (p : Char → Bool) (src : Source) (i : Nat) : Nat := skipWhile p src (src.size - i) i

/-- The offset of the first place from `i` on where `cs` stands. -/
def find? (cs : List Char) (src : Source) : Nat → Nat → Option Nat
  | 0, i => if standsAt src i cs then some i else none
  | fuel + 1, i => if standsAt src i cs then some i else find? cs src fuel (i + 1)

/-- Letters and digits beyond ASCII: every character that is neither blank, nor one of the ranges
of punctuation, symbols and control characters, nor for private use. -/
def isForeignLetter (c : Char) : Bool :=
  let n := c.toNat
  n ≥ 0xAA && !Text.isBlank c && n != 0xAB && n != 0xAC && n != 0xAD && n != 0xAE && n != 0xAF &&
    !(0xB0 ≤ n && n ≤ 0xB4) && !(0xB6 ≤ n && n ≤ 0xB9) && !(0xBB ≤ n && n ≤ 0xBF) &&
    n != 0xD7 && n != 0xF7 && !(0x2000 ≤ n && n ≤ 0x203E) && !(0x2041 ≤ n && n ≤ 0x2070) &&
    !(0x2072 ≤ n && n ≤ 0x207E) && !(0x2080 ≤ n && n ≤ 0x208F) && !(0x20A0 ≤ n && n ≤ 0x20CF) &&
    !(0x2190 ≤ n && n ≤ 0x2BFF) && !(0x2E00 ≤ n && n ≤ 0x2E7F) && !(0x3001 ≤ n && n ≤ 0x3004) &&
    !(0x3008 ≤ n && n ≤ 0x3020) && n != 0x3030 && !(0xE000 ≤ n && n ≤ 0xF8FF) &&
    !(0xFE10 ≤ n && n ≤ 0xFE1F) && !(0xFE30 ≤ n && n ≤ 0xFE32) && !(0xFE35 ≤ n && n ≤ 0xFE4C) &&
    !(0xFE50 ≤ n && n ≤ 0xFE6F) && n != 0xFEFF && !(0xFF01 ≤ n && n ≤ 0xFF0F) &&
    !(0xFF1A ≤ n && n ≤ 0xFF20) && !(0xFF3B ≤ n && n ≤ 0xFF3E) && n != 0xFF40 &&
    !(0xFF5B ≤ n && n ≤ 0xFF65) && !(0xFFE0 ≤ n && n ≤ 0xFFFF) && !(0x1F000 ≤ n && n ≤ 0x1FAFF) &&
    n < 0xE0000

/-- Characters that may begin a word. -/
def isWordStart (c : Char) : Bool := c.isAlpha || c == '_' || isForeignLetter c

/-- Characters that may follow in a word. -/
def isWordPart (c : Char) : Bool := c.isAlphanum || c == '_' || c == '$' || isForeignLetter c

/-- The text of a word of characters that begin with one of the first class. -/
def word (first rest : Char → Bool) : Lexeme := fun src i =>
  match src[i]? with
  | some c => if first c then some (endOfRun rest src (i + 1)) else none
  | none => none

/-- A word that is none of the reserved ones. -/
def wordExcept (first rest : Char → Bool) (reserved : List (List Char)) : Lexeme := fun src i =>
  match word first rest src i with
  | some j =>
    if reserved.any fun r => r.length == j - i && standsAt src i r then none else some j
  | none => none

/-- One of these words exactly, not the beginning of a longer one. -/
def keyword (cs : List Char) : Lexeme := fun src i =>
  if standsAt src i cs then
    match src[i + cs.length]? with
    | some c => if isWordPart c then none else some (i + cs.length)
    | none => some (i + cs.length)
  else none

/-- These characters, not followed by one of `longer`, which would make another sign of them. -/
def sign (cs longer : List Char) : Lexeme := fun src i =>
  if standsAt src i cs then
    match src[i + cs.length]? with
    | some c => if longer.contains c then none else some (i + cs.length)
    | none => some (i + cs.length)
  else none

/-- The first of the lexemes that stands at the offset. -/
def anyOf (ls : List Lexeme) : Lexeme := fun src i => ls.findSome? fun l => l src i

/-- A number: a digit, or a point and a digit, and all letters, digits, points and underscores
that follow, with a sign after the letter of an exponent. -/
def number : Lexeme := fun src i =>
  let digitAt (j : Nat) : Bool := (src[j]?.map Char.isDigit).getD false
  let radix := standsAt src i ['0', 'x'] || standsAt src i ['0', 'X']
  let rec go : Nat → Nat → Nat
    | 0, j => j
    | fuel + 1, j =>
      match src[j]? with
      | some c =>
        if (c == 'e' || c == 'E' || c == 'p' || c == 'P') && (!radix || c == 'p' || c == 'P') &&
            (src[j + 1]? == some '+' || src[j + 1]? == some '-') && digitAt (j + 2) then
          go fuel (j + 2)
        else if c.isAlphanum || c == '_' then go fuel (j + 1)
        else if c == '.' && src[j + 1]? != some '.' then go fuel (j + 1)
        else j
      | none => j
  if digitAt i || (src[i]? == some '.' && digitAt (i + 1)) then
    some (go (src.size - i) (i + 1))
  else none

/-- The rest of a text between quotes, from `i` on: up to and including the closing quote. A
backslash takes the next character with it; a line end is refused unless `multiline`. -/
def quotedRest (close : List Char) (multiline : Bool) (src : Source) : Nat → Nat → Option Nat
  | 0, _ => none
  | fuel + 1, i =>
    if standsAt src i close then some (i + close.length)
    else match src[i]? with
      | none => none
      | some '\\' => quotedRest close multiline src fuel (i + 2)
      | some '\n' => if multiline then quotedRest close multiline src fuel (i + 1) else none
      | some _ => quotedRest close multiline src fuel (i + 1)

/-- A text between two equal quotes, with escapes. -/
def quoted (quote : Char) (multiline : Bool) : Lexeme := fun src i =>
  if src[i]? == some quote then quotedRest [quote] multiline src (src.size - i + 1) (i + 1)
  else none

end Lexeme

end CodeAtlas
