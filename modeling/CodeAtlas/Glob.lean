import CodeAtlas.Text.Blank
/-!
Path patterns. `?` stands for any character, `*` for any characters, `[...]` and `[!...]` for one
character of a set or outside it, and `**` for any number of whole path components. A slash is
matched by each of them; only `**` looks at where components begin.
-/

namespace CodeAtlas

/-- The characters from one to another, both included. -/
structure CharRange where
  low : Char
  high : Char
deriving DecidableEq, Repr

namespace CharRange

def contains (r : CharRange) (c : Char) : Bool := r.low ≤ c && c ≤ r.high

end CharRange

/-- A pattern is a list of these. -/
inductive GlobPart where
  | char (c : Char)
  | anyChar
  | anyOf (ranges : List CharRange)
  | noneOf (ranges : List CharRange)
  /-- Any characters. -/
  | sequence
  /-- Any number of path components. -/
  | components
deriving DecidableEq, Repr

/-- A pattern for paths. -/
structure Glob where
  parts : List GlobPart
deriving DecidableEq, Repr

namespace Glob

/-! ## Reading patterns -/

/-- The characters between brackets: `a-z` is a range, and a hyphen at an end stands for itself. -/
def readRanges : List Char → List CharRange
  | low :: '-' :: high :: rest => ⟨low, high⟩ :: readRanges rest
  | c :: rest => ⟨c, c⟩ :: readRanges rest
  | [] => []

/-- What stands before the first closing bracket, and what behind it. -/
def splitBracket : List Char → Option (List Char × List Char)
  | [] => none
  | ']' :: rest => some ([], rest)
  | c :: rest => (splitBracket rest).map fun (inside, after) => (c :: inside, after)

/-- A set behind its opening bracket. The first character of a set may be a closing bracket, so a
set has at least one character. -/
def readSet? : List Char → Option (GlobPart × List Char)
  | '!' :: c :: rest =>
    (splitBracket rest).map fun (inside, after) => (.noneOf (readRanges (c :: inside)), after)
  | '!' :: [] => none
  | c :: rest =>
    (splitBracket rest).map fun (inside, after) => (.anyOf (readRanges (c :: inside)), after)
  | [] => none

/-- Adds `**` to the parts read so far, the last first. Of several in a row only the first two at
the beginning of a pattern are kept, and elsewhere only the first. -/
def addComponents (acc : List GlobPart) : List GlobPart :=
  match acc with
  | .components :: _ :: _ => acc
  | _ => .components :: acc

/-- Reads parts, the parts before given last first. `fresh` says whether a path component begins
here. -/
def readParts : Nat → Bool → List Char → List GlobPart → Option (List GlobPart)
  | 0, _, _, _ => none
  | fuel + 1, fresh, cs, acc =>
    match cs with
    | [] => some acc.reverse
    | '?' :: rest => readParts fuel false rest (.anyChar :: acc)
    | '*' :: '*' :: '*' :: _ => none
    | '*' :: '*' :: rest =>
      if !fresh then none
      else match rest with
        | [] => some (addComponents acc).reverse
        | '/' :: rest => readParts fuel true rest (addComponents acc)
        | _ => none
    | '*' :: rest => readParts fuel false rest (.sequence :: acc)
    | '[' :: rest =>
      match readSet? rest with
      | some (part, rest) => readParts fuel false rest (part :: acc)
      | none => none
    | c :: rest => readParts fuel (c == '/') rest (.char c :: acc)

/-- The pattern of a text. Three stars in a row, `**` that is not a whole path component, and a
bracket without its partner make a text invalid. -/
def ofString? (s : String) : Option Glob :=
  (readParts (s.length + 1) true s.toList []).map Glob.mk

/-! ## Matching -/

/-- Whether one character fits a part that stands for one. -/
def fits : GlobPart → Char → Bool
  | .char d, c => d == c
  | .anyChar, _ => true
  | .anyOf ranges, c => ranges.any (·.contains c)
  | .noneOf ranges, c => !ranges.any (·.contains c)
  | .sequence, _ | .components, _ => false

/-- What is left of a text behind any number of its characters. -/
def suffixes : List Char → List (List Char)
  | [] => [[]]
  | c :: rest => (c :: rest) :: suffixes rest

/-- What is left of a text behind each of its slashes. -/
def behindSlashes : List Char → List (List Char)
  | [] => []
  | c :: rest => if c == '/' then rest :: behindSlashes rest else behindSlashes rest

/-- Whether the parts match the whole text. -/
def matchesParts : List GlobPart → List Char → Bool
  | [], cs => cs.isEmpty
  | .sequence :: parts, cs => (suffixes cs).any (matchesParts parts)
  | .components :: parts, cs =>
    matchesParts parts cs || (behindSlashes cs).any (matchesParts parts) || matchesParts parts []
  | part :: parts, c :: cs => fits part c && matchesParts parts cs
  | _ :: _, [] => false

/-- Whether a pattern matches the whole of a path. -/
def accepts (g : Glob) (path : String) : Bool := matchesParts g.parts path.toList

end Glob

end CodeAtlas
