import CodeAtlas.Yaml.Basic
/-!
Places in a YAML text.
-/

namespace CodeAtlas.Yaml

/-- A place in a text. -/
structure Cursor where
  /-- What comes from there on. -/
  chars : List Char
  line : Nat := 0
  column : Nat := 0
  /-- How many characters come before. -/
  index : Nat := 0
  /-- Whether a key or an item of a block may begin here. Only there tabs are no blanks. -/
  mayBegin : Bool := true
  /-- The values that have been given a name, the last first. -/
  anchors : List (String × Yaml) := []

namespace Cursor

/-- The place behind the next character. -/
def next (c : Cursor) : Cursor :=
  match c.chars with
  | [] => c
  | x :: rest =>
    if isBreak x then
      { c with chars := rest, line := c.line + 1, column := 0, index := c.index + 1 }
    else { c with chars := rest, column := c.column + 1, index := c.index + 1 }

/-- The place behind so many characters. -/
def skip : Nat → Cursor → Cursor
  | 0, c => c
  | n + 1, c => skip n c.next

/-- The place behind the longest run of characters of a class. -/
def skipWhile (p : Char → Bool) (c : Cursor) : Cursor :=
  skip (c.chars.takeWhile p).length c

def next? (c : Cursor) : Option Char := c.chars.head?

/-- Whether a character is next. -/
def isAt (c : Cursor) (x : Char) : Bool := c.next? == some x

/-- Whether a sign is next that stands for itself. -/
def isSign (c : Cursor) (x : Char) : Bool :=
  match c.chars with
  | y :: rest => x == y && endsWord rest
  | [] => false

/-- Whether a mark of three characters is next, at the beginning of a line. -/
def isMark (c : Cursor) (x : Char) : Bool :=
  c.column == 0 &&
    match c.chars with
    | a :: b :: d :: rest => a == x && b == x && d == x && endsWord rest
    | _ => false

/-- Whether the value ends here, whatever its column: at a mark or the end of the text. -/
def atEnd (c : Cursor) : Bool := c.chars.isEmpty || c.isMark '-' || c.isMark '.'

/-- Forbids or allows keys and items. -/
def setMayBegin (b : Bool) (c : Cursor) : Cursor := { c with mayBegin := b }

/-- Skips blanks, comments and line ends. -/
def skipSpaceWithin (inFlow : Bool) : Nat → Cursor → Cursor
  | 0, c => c
  | fuel + 1, c =>
    let c := c.skipWhile fun x => x == ' ' || ((inFlow || !c.mayBegin) && x == '\t')
    let c := if c.isAt '#' then c.skipWhile (!isBreak ·) else c
    if c.next?.any isBreak then
      skipSpaceWithin inFlow fuel (if inFlow then c.next else c.next.setMayBegin true)
    else c

/-- The place of the next thing that is no space. Inside brackets (`inFlow`) tabs are blanks. -/
def skipSpace (inFlow : Bool) (c : Cursor) : Cursor :=
  skipSpaceWithin inFlow (c.chars.length + 1) c

/-- Whether a place lies so shortly behind another that what is between may be a key. -/
def isNear (start c : Cursor) : Bool := start.line == c.line && c.index ≤ start.index + 1024

end Cursor

/-- Blanks or line ends between two words. -/
inductive Gap where
  | none
  | blanks (cs : List Char)
  /-- A line end and further ones, without the blanks around them. -/
  | breaks (first : Char) (more : List Char)

namespace Gap

/-- What a gap means: a line end alone is a space, and of several ones the first is left out. -/
def meaning : Gap → List Char
  | none => []
  | blanks cs => cs
  | breaks '\n' [] => [' ']
  | breaks '\n' more => more
  | breaks first more => first :: more

def hasBreak : Gap → Bool
  | breaks _ _ => true
  | _ => false

def addBlank (x : Char) : Gap → Gap
  | none => blanks [x]
  | blanks cs => blanks (cs ++ [x])
  | breaks first more => breaks first more

def addBreak (x : Char) : Gap → Gap
  | breaks first more => breaks first (more ++ [x])
  | _ => breaks x []

end Gap

/-- Reads a gap. A tab may not indent a line before the column `least`. -/
def readGapWithin (least : Nat) : Nat → Gap → Cursor → Option (Gap × Cursor)
  | 0, _, _ => none
  | fuel + 1, gap, c =>
    match c.next? with
    | none => some (gap, c)
    | some x =>
      if isBreak x then readGapWithin least fuel (gap.addBreak x) c.next
      else if isBlank x then
        if gap.hasBreak && c.column < least && x == '\t' then none
        else readGapWithin least fuel (gap.addBlank x) c.next
      else some (gap, c)

def readGap (least : Nat) (c : Cursor) : Option (Gap × Cursor) :=
  readGapWithin least (c.chars.length + 1) .none c

end CodeAtlas.Yaml
