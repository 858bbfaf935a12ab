import CodeAtlas.Json.Reader
import CodeAtlas.Yaml.Cursor
/-!
Reading scalars: plain ones, ones in quotes, and blocks.
-/

namespace CodeAtlas.Yaml

/-! ## Plain scalars -/

/-- Whether a plain scalar may begin here. -/
def beginsPlain (inFlow : Bool) (c : Cursor) : Bool :=
  match c.chars with
  | [] => false
  | x :: rest =>
    if isBlank x || isBreak x then false
    else if x == '-' then !endsWord rest
    else if x == '?' || x == ':' then !inFlow && !endsWord rest
    else !",[]\x7b\x7d#&*!|>'\"%@\x60".toList.contains x

/-- The signs of lists and tables in brackets. -/
def isFlowSign (x : Char) : Bool := ",[]\x7b\x7d".toList.contains x

/-- The characters of a plain scalar up to a blank, and whether they are well-formed. -/
def plainRun (inFlow : Bool) : List Char → Option (List Char)
  | [] => some []
  | x :: rest =>
    if isBlank x || isBreak x then some []
    else if x == ':' && endsWord rest then some []
    else if inFlow && x == ':' && rest.head?.any (fun y => isFlowSign y || y == '?') then none
    else if inFlow && isFlowSign x then some []
    else (plainRun inFlow rest).map (x :: ·)

/-- Reads a plain scalar. Outside of brackets its lines do not begin before the column `floor`. -/
def readPlainWithin (inFlow : Bool) (floor : Nat) :
    Nat → Gap → List Char → Cursor → Option (List Char × Cursor)
  | 0, _, _, _ => none
  | fuel + 1, gap, acc, c =>
    let stop := some (acc, c.setMayBegin (c.mayBegin || gap.hasBreak))
    if c.isMark '-' || c.isMark '.' || c.isAt '#' then stop
    else
      match plainRun inFlow c.chars with
      | none => none
      | some [] => stop
      | some run =>
        let acc := acc ++ gap.meaning ++ run
        match readGap floor (c.skip run.length) with
        | none => none
        | some (.none, c) => some (acc, c)
        | some (gap, c) =>
          if !inFlow && c.column < floor then
            some (acc, c.setMayBegin (c.mayBegin || gap.hasBreak))
          else readPlainWithin inFlow floor fuel gap acc c

def readPlain (inFlow : Bool) (floor : Nat) (c : Cursor) : Option (Yaml × Cursor) :=
  (readPlainWithin inFlow floor (c.chars.length + 1) .none [] (c.setMayBegin false)).map
    fun (text, c) => (.plain (.ofList text), c)

/-! ## Quotes -/

/-- The value of so many hexadecimal digits. -/
def hexNumber? (count : Nat) (cs : List Char) : Option Nat :=
  let digits := cs.take count
  if digits.length < count then none
  else digits.foldlM (fun n d => (Json.hexValue? d).map (n * 16 + ·)) 0

/-- What a letter behind a backslash stands for. -/
def simpleEscape? : Char → Option Char
  | '0' => some '\x00'
  | 'a' => some '\x07'
  | 'b' => some '\x08'
  | 't' | '\t' => some '\t'
  | 'n' => some '\n'
  | 'v' => some '\x0b'
  | 'f' => some '\x0c'
  | 'r' => some '\r'
  | 'e' => some '\x1b'
  | ' ' => some ' '
  | '"' => some '"'
  | '/' => some '/'
  | '\\' => some '\\'
  | 'N' => some '\u0085'
  | '_' => some '\u00a0'
  | 'L' => some '\u2028'
  | 'P' => some '\u2029'
  | _ => none

/-- The number of digits behind a letter behind a backslash. -/
def escapeDigits : Char → Nat
  | 'x' => 2
  | 'u' => 4
  | 'U' => 8
  | _ => 0

/-- What the characters behind a backslash stand for, and their number. -/
def readEscape : List Char → Option (Char × Nat)
  | [] => none
  | x :: rest =>
    match simpleEscape? x with
    | some y => some (y, 1)
    | none => do
      let count := escapeDigits x
      if count == 0 then none
      else
        let n ← hexNumber? count rest
        if n.isValidChar then some (.ofNat n, count + 1) else none

/-- Reads a text in quotes from behind the first one. -/
def readQuotedWithin (quote : Char) : Nat → List Char → Cursor → Option (List Char × Cursor)
  | 0, _, _ => none
  | fuel + 1, acc, c =>
    if c.isMark '-' || c.isMark '.' then none
    else
      match c.chars with
      | [] => none
      | x :: rest =>
        if x == quote then
          if quote == '\'' && rest.head? == some '\'' then
            readQuotedWithin quote fuel ('\'' :: acc) (c.skip 2)
          else some (acc.reverse, c.next)
        else if quote == '"' && x == '\\' then
          if rest.head?.any isBreak then
            match readGap 0 (c.skip 2) with
            | none => none
            | some (.breaks first more, c) =>
              readQuotedWithin quote fuel ((first :: more).reverse ++ acc) c
            | some (_, c) => readQuotedWithin quote fuel acc c
          else
            match readEscape rest with
            | none => none
            | some (y, count) => readQuotedWithin quote fuel (y :: acc) (c.skip (count + 1))
        else if isBlank x || isBreak x then
          match readGap 0 c with
          | none => none
          | some (gap, c) => readQuotedWithin quote fuel (gap.meaning.reverse ++ acc) c
        else readQuotedWithin quote fuel (x :: acc) c.next

def readQuoted (quote : Char) (c : Cursor) : Option (Yaml × Cursor) :=
  (readQuotedWithin quote (c.chars.length + 1) [] (c.next.setMayBegin false)).map
    fun (text, c) => (.str (.ofList text), c)

/-! ## Blocks -/

/-- Which line ends at the end of a block belong to it. -/
inductive Chomping where
  | none | one | all
deriving DecidableEq

/-- The signs behind the first one of a block: its indentation and what becomes of its end. -/
def readBlockSigns (cs : List Char) : Option (Nat × Chomping × Nat) :=
  let chomping? : List Char → Chomping × List Char
    | '+' :: rest => (.all, rest)
    | '-' :: rest => (.none, rest)
    | rest => (.one, rest)
  let digit? : List Char → Option (Nat × List Char)
    | x :: rest =>
      if x.isDigit then (if x == '0' then none else some (x.toNat - 48, rest))
      else some (0, x :: rest)
    | [] => some (0, [])
  let (chomping, rest) := chomping? cs
  match digit? rest with
  | none => none
  | some (indent, rest) =>
    let (chomping, rest) := if chomping = .one then chomping? rest else (chomping, rest)
    some (indent, chomping, cs.length - rest.length)

/-- Reads the empty lines before a line of a block, and the spaces that indent it. Without an
indentation (`none`) all spaces are read, and the greatest column is told. -/
def readBlockBreaks (indent : Option Nat) :
    Nat → Nat → List Char → Cursor → Option (Nat × List Char × Cursor)
  | 0, _, _, _ => none
  | fuel + 1, widest, breaks, c =>
    let spaces := (c.chars.takeWhile (· == ' ')).length
    let c := c.skip (match indent with
      | some n => min spaces (n - c.column)
      | none => spaces)
    let widest := max widest c.column
    if indent.all (c.column < ·) && c.isAt '\t' then none
    else
      match c.next? with
      | some x =>
        if isBreak x then readBlockBreaks indent fuel widest (breaks ++ [x]) c.next
        else some (widest, breaks, c)
      | none => some (widest, breaks, c)

/-- Reads the lines of a block. `ended` is the line end of the line before, `breaks` has the empty
lines after it, and `wasBlank` says whether that line began with a blank. -/
def readBlockLines (isLiteral : Bool) (chomping : Chomping) (indent : Nat) :
    Nat → List Char → Option Char → List Char → Bool → Cursor → Option (List Char × Cursor)
  | 0, _, _, _, _, _ => none
  | fuel + 1, acc, ended, breaks, wasBlank, c =>
    if c.column == indent && !c.chars.isEmpty then
      let isBlank := c.next?.any isBlank
      let joint :=
        if !isLiteral && ended == some '\n' && !wasBlank && !isBlank then
          if breaks.isEmpty then [' '] else breaks
        else ended.toList ++ breaks
      let line := c.chars.takeWhile (!isBreak ·)
      let c := c.skip line.length
      let acc := acc ++ joint ++ line
      match c.next? with
      | none => some (acc, c)
      | some x =>
        match readBlockBreaks (some indent) (c.chars.length + 1) 0 [] c.next with
        | none => none
        | some (_, breaks, c) =>
          readBlockLines isLiteral chomping indent fuel acc (some x) breaks isBlank c
    else
      some (acc ++ (match chomping with
        | .none => []
        | .one => ended.toList
        | .all => ended.toList ++ breaks), c)

/-- Reads a block in a collection whose content begins at the column `floor`. -/
def readBlock (isLiteral : Bool) (floor : Nat) (c : Cursor) : Option (Yaml × Cursor) := do
  let (told, chomping, count) ← readBlockSigns c.next.chars
  let c := (c.next.skip count).skipWhile isBlank
  let c := if c.isAt '#' then c.skipWhile (!isBreak ·) else c
  if c.next?.any (!isBreak ·) then none
  else
    let c := c.next
    let base := floor - 1
    let (widest, breaks, c) ←
      readBlockBreaks (if told == 0 then none else some (base + told)) (c.chars.length + 1) 0 [] c
    let indent := if told == 0 then max (max widest floor) 1 else base + told
    let (text, c) ←
      readBlockLines isLiteral chomping indent (c.chars.length + 1) [] none breaks false c
    some (.str (.ofList text), c.setMayBegin true)

end CodeAtlas.Yaml
