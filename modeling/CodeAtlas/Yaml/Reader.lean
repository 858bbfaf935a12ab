import CodeAtlas.Keyed
import CodeAtlas.Yaml.Word
/-!
Reading YAML: tags and names of values, collections in brackets, collections by indentation, and
whole documents.
-/

namespace CodeAtlas.Yaml

/-! ## Names and tags -/

def isWordChar (c : Char) : Bool := c.isAlphanum || c == '_' || c == '-'

/-- Reads the name of a value behind its sign. -/
def readName (c : Cursor) : Option (String × Cursor) :=
  let name := c.next.chars.takeWhile isWordChar
  let c := (c.next.skip name.length).setMayBegin false
  let ends := endsWord c.chars || c.next?.any fun x => "?:,]\x7d%@\x60".toList.contains x
  if name.isEmpty || !ends then none else some (.ofList name, c)

def isUriChar (c : Char) : Bool := isWordChar c || ";/?:@&=+$.!~*'()%".toList.contains c

/-- Which texts the handles of tags stand for. -/
abbrev TagHandles := List (String × String)

def standardHandles : TagHandles := [("!", "!"), ("!!", "tag:yaml.org,2002:")]

/-- Reads a tag. -/
def readTag (handles : TagHandles) (inFlow : Bool) (c : Cursor) : Option (String × Cursor) := do
  let (tag, c) ← match c.chars with
    | '!' :: '<' :: rest =>
      let uri := rest.takeWhile fun x => isUriChar x || x == ',' || x == '[' || x == ']'
      match rest.drop uri.length with
      | '>' :: _ => if uri.isEmpty then none else some (String.ofList uri, c.skip (uri.length + 3))
      | _ => none
    | _ :: rest =>
      let word := rest.takeWhile isWordChar
      match rest.drop word.length with
      | '!' :: after =>
        let uri := after.takeWhile isUriChar
        let handle := "!" ++ .ofList word ++ "!"
        match (handles.find? (·.1 == handle)).map (·.2) with
        | some start =>
          if uri.isEmpty then none
          else some (start ++ .ofList uri, c.skip (word.length + 2 + uri.length))
        | none => none
      | _ =>
        let uri := rest.takeWhile isUriChar
        let start := ((handles.find? (·.1 == "!")).map (·.2)).getD "!"
        if uri.isEmpty then some ("!", c.next)
        else some (start ++ .ofList uri, c.skip (uri.length + 1))
    | [] => none
  if endsWord c.chars || (inFlow && c.isAt ',') then some (tag, c.setMayBegin false) else none

/-- What is told about a value in front of it. -/
structure Properties where
  anchor : Option String := none
  tag : Option String := none

namespace Properties

/-- A value with its tag, and the place behind it where its name is known. -/
def apply (p : Properties) (v : Yaml) (c : Cursor) : Yaml × Cursor :=
  let v := match p.tag with
    | some tag => .tagged tag v
    | none => v
  (v, match p.anchor with
    | some name => { c with anchors := (name, v) :: c.anchors }
    | none => c)

end Properties

/-- Reads the name and the tag of a value, each once at most, on the line where they begin. The
place is that of what follows, which may be on another line. -/
def readProperties (handles : TagHandles) (inFlow : Bool) :
    Nat → Properties → Cursor → Option (Properties × Cursor)
  | 0, p, c => some (p, c)
  | fuel + 1, p, c =>
    if c.isAt '&' && p.anchor.isNone then
      match readName c with
      | none => none
      | some (name, after) => go fuel { p with anchor := some name } after
    else if c.isAt '!' && p.tag.isNone then
      match readTag handles inFlow c with
      | none => none
      | some (tag, after) => go fuel { p with tag := some tag } after
    else some (p, c)
where
  go (fuel : Nat) (p : Properties) (after : Cursor) : Option (Properties × Cursor) :=
    let c := after.skipSpace inFlow
    if c.line == after.line || inFlow then readProperties handles inFlow fuel p c
    else some (p, c)

/-- Reads a value that has been given a name. -/
def readAlias (c : Cursor) : Option (Yaml × Cursor) :=
  match readName c with
  | none => none
  | some (name, after) =>
    ((after.anchors.find? (·.1 == name)).map (·.2)).map (·, after)

/-! ## Collections in brackets -/

mutual
/-- A value inside brackets. -/
def readFlow (handles : TagHandles) (floor : Nat) : Nat → Cursor → Option (Yaml × Cursor)
  | 0, _ => none
  | fuel + 1, c => do
    if c.isMark '-' || c.isMark '.' || (c.column == 0 && c.isAt '%') then none
    else if c.isAt '*' then readAlias c
    else
      let (p, after) ← readProperties handles true 2 {} c
      let hasProperties := p.anchor.isSome || p.tag.isSome
      if hasProperties && (after.next?.any fun x => ",]\x7d:".toList.contains x) then
        some (p.apply .empty after)
      else
        let (v, after) ← match after.next? with
          | some '[' => readFlowItems handles floor fuel [] (after.next.skipSpace true)
          | some '\x7b' => readFlowEntries handles floor fuel [] (after.next.skipSpace true)
          | some '\'' => readQuoted '\'' after
          | some '"' => readQuoted '"' after
          | _ => if beginsPlain true after then readPlain true floor after else none
        some (p.apply v after)

/-- A value behind a colon inside brackets. -/
def readFlowValue (handles : TagHandles) (floor : Nat) (closing : Char) :
    Nat → Cursor → Option (Yaml × Cursor)
  | 0, _ => none
  | fuel + 1, c =>
    let c := c.next.skipSpace true
    if c.isAt ',' || c.isAt closing then some (.empty, c)
    else readFlow handles floor fuel c

/-- The items of a list, from an item or the closing bracket on. -/
def readFlowItems (handles : TagHandles) (floor : Nat) :
    Nat → List Yaml → Cursor → Option (Yaml × Cursor)
  | 0, _, _ => none
  | fuel + 1, acc, c => do
    if c.isAt ']' then some (.seq acc.reverse, c.next.setMayBegin false)
    else
      let (item, after) ←
        if c.isAt '?' then do
          let start := c.next.skipSpace true
          let (key, after) ←
            if start.isAt ':' || start.isAt ',' || start.isAt ']' then some (.empty, start)
            else readFlow handles floor fuel start
          let after := after.skipSpace true
          if after.isAt ':' then
            let (v, after) ← readFlowValue handles floor ']' fuel after
            some (Yaml.map [(key, v)], after)
          else some (.map [(key, .empty)], after)
        else do
          let (v, after) ← readFlow handles floor fuel c
          let after := after.skipSpace true
          if after.isAt ':' && c.isNear after then
            let (w, after) ← readFlowValue handles floor ']' fuel after
            some (.map [(v, w)], after)
          else some (v, after)
      let after := after.skipSpace true
      if after.isAt ',' then
        readFlowItems handles floor fuel (item :: acc) (after.next.skipSpace true)
      else if after.isAt ']' then readFlowItems handles floor fuel (item :: acc) after
      else none

/-- The entries of a table, from an entry or the closing bracket on. -/
def readFlowEntries (handles : TagHandles) (floor : Nat) :
    Nat → List (Yaml × Yaml) → Cursor → Option (Yaml × Cursor)
  | 0, _, _ => none
  | fuel + 1, acc, c => do
    if c.isAt '\x7d' then some (.map acc.reverse, c.next.setMayBegin false)
    else
      let isExplicit := c.isAt '?'
      let start := if isExplicit then c.next.skipSpace true else c
      let (key, after) ←
        if isExplicit && (start.isAt ':' || start.isAt ',' || start.isAt '\x7d') then
          some (.empty, start)
        else readFlow handles floor fuel start
      let after := after.skipSpace true
      let (v, after) ←
        if after.isAt ':' && (isExplicit || c.isNear after) then
          readFlowValue handles floor '\x7d' fuel after
        else some (.empty, after)
      let after := after.skipSpace true
      if after.isAt ',' then
        readFlowEntries handles floor fuel ((key, v) :: acc) (after.next.skipSpace true)
      else if after.isAt '\x7d' then
        readFlowEntries handles floor fuel ((key, v) :: acc) after
      else none
end

/-! ## Collections by indentation -/

/-- Reads a value that does not go on in lines of its own: a name, a scalar or a collection in
brackets. -/
def readWord (handles : TagHandles) (floor fuel : Nat) (c : Cursor) : Option (Yaml × Cursor) :=
  match c.next? with
  | some '*' => readAlias c
  | some '[' => readFlowItems handles floor fuel [] (c.next.skipSpace true)
  | some '\x7b' => readFlowEntries handles floor fuel [] (c.next.skipSpace true)
  | some '\'' => readQuoted '\'' c
  | some '"' => readQuoted '"' c
  | some '|' => readBlock true floor c
  | some '>' => readBlock false floor c
  | _ => if beginsPlain false c then readPlain false floor c else none

/-- What a line begins with: a key with the place of its colon, a whole value, or only what is told
about a value that follows. -/
inductive LineStart where
  | key (key : Yaml) (colon : Cursor)
  | value (value : Yaml) (after : Cursor)
  | properties (p : Properties) (after : Cursor)

/-- Reads what a line begins with. A key ends on its line and is not long. -/
def readLineStart (handles : TagHandles) (floor fuel : Nat) (c : Cursor) : Option LineStart := do
  let (p, start) ← readProperties handles false 2 {} c
  let finish (v : Yaml) (after : Cursor) : Option LineStart :=
    let colon := after.skipWhile isBlank
    if c.isNear colon && colon.isSign ':' then
      if c.mayBegin then some (.key v colon) else none
    else some (.value v after)
  if start.index != c.index && (start.line != c.line || start.atEnd || start.isSign ':') then
    if start.line == c.line && start.isSign ':' then
      let (v, after) := p.apply .empty start
      finish v after
    else some (.properties p start)
  else if start.index != c.index && start.isAt '*' then none
  else
    let isBlock := start.isAt '|' || start.isAt '>'
    let (v, after) ← readWord handles floor fuel start
    let (v, after) := p.apply v after
    if isBlock then some (.value v after) else finish v after

mutual
/-- A value in a collection whose content begins at the column `floor`. Behind a key (`listBelow`)
the items of a list may stand one column before. -/
def readNode (handles : TagHandles) (floor : Nat) (listBelow : Bool) :
    Nat → Cursor → Option (Yaml × Cursor)
  | 0, _ => none
  | fuel + 1, c => do
    if c.atEnd then some (.empty, c)
    else if c.column < floor then
      if listBelow && c.column + 1 == floor && c.isSign '-' && c.mayBegin then
        readItems handles c.column true fuel [] c
      else some (.empty, c)
    else if c.column == 0 && c.isAt '%' then none
    else if c.isSign '-' then
      if c.mayBegin then readItems handles c.column false fuel [] c else none
    else if c.isSign '?' then
      if c.mayBegin then readEntries handles c.column fuel [] c else none
    else if c.isSign ':' then none
    else
      match ← readLineStart handles floor fuel c with
      | .value v after => some (v, after)
      | .properties p after =>
        let (v, after) ← readNode handles floor listBelow fuel after
        some (p.apply v after)
      | .key key colon => readEntryValue handles c.column fuel [] key colon
termination_by structural fuel => fuel

/-- The items of a list from a sign on. -/
def readItems (handles : TagHandles) (column : Nat) (isBelowKey : Bool) :
    Nat → List Yaml → Cursor → Option (Yaml × Cursor)
  | 0, _, _ => none
  | fuel + 1, acc, c => do
    let start := (c.next.setMayBegin true).skipSpace false
    let (item, after) ← readNode handles (column + 1) false fuel start
    let next := after.skipSpace false
    if next.atEnd || next.column < column then some (.seq (item :: acc).reverse, next)
    else if next.column != column then none
    else if next.isSign '-' && next.mayBegin then
      readItems handles column isBelowKey fuel (item :: acc) next
    else if isBelowKey then some (.seq (item :: acc).reverse, next)
    else none
termination_by structural fuel => fuel

/-- The entries of a table from a key on. -/
def readEntries (handles : TagHandles) (column : Nat) :
    Nat → List (Yaml × Yaml) → Cursor → Option (Yaml × Cursor)
  | 0, _, _ => none
  | fuel + 1, acc, c => do
    if c.isSign '?' then
      let start := (c.next.setMayBegin true).skipSpace false
      let (key, after) ← readNode handles (column + 1) true fuel start
      let next := after.skipSpace false
      if !next.atEnd && next.column == column && next.isSign ':' && next.mayBegin then
        readEntryValue handles column fuel acc key next
      else readMoreEntries handles column fuel ((key, .empty) :: acc) next
    else
      match ← readLineStart handles (column + 1) fuel c with
      | .key key colon => readEntryValue handles column fuel acc key colon
      | _ => none
termination_by structural fuel => fuel

/-- The value behind a colon and the entries behind it. Only if the colon is at the beginning of
its line, a collection may begin on the line. -/
def readEntryValue (handles : TagHandles) (column : Nat) :
    Nat → List (Yaml × Yaml) → Yaml → Cursor → Option (Yaml × Cursor)
  | 0, _, _, _ => none
  | fuel + 1, acc, key, colon => do
    let start := (colon.next.setMayBegin (colon.column == column && colon.mayBegin)).skipSpace false
    let (v, after) ← readNode handles (column + 1) true fuel start
    readMoreEntries handles column fuel ((key, v) :: acc) (after.skipSpace false)
termination_by structural fuel => fuel

/-- The entries of a table behind an entry. -/
def readMoreEntries (handles : TagHandles) (column : Nat) :
    Nat → List (Yaml × Yaml) → Cursor → Option (Yaml × Cursor)
  | 0, _, _ => none
  | fuel + 1, acc, next =>
    if next.atEnd || next.column < column then some (.map acc.reverse, next)
    else if next.column == column then readEntries handles column fuel acc next
    else none
termination_by structural fuel => fuel
end

/-! ## Documents -/

/-- Reads the lines in front of a document that begin with a percent sign. -/
def readDirectives : Nat → Bool → TagHandles → Cursor → Option (TagHandles × Cursor)
  | 0, _, _, _ => none
  | fuel + 1, hasVersion, handles, c => do
    if !(c.column == 0 && c.isAt '%') then some (handles, c)
    else
      let line := c.chars.takeWhile (!isBreak ·)
      let words := ((String.ofList (line.takeWhile (· != '#'))).splitOn " ").filter (· != "")
      let next := (c.skip line.length).skipSpace false
      match words with
      | ["%YAML", version] =>
        if hasVersion || !(version == "1.1" || version == "1.2") then none
        else readDirectives fuel true handles next
      | ["%TAG", handle, start] =>
        readDirectives fuel hasVersion ((handle, start) :: handles) next
      | _ => none

/-- Skips marks that end a document. -/
def skipEnds : Nat → Cursor → Cursor
  | 0, c => c
  | fuel + 1, c => if c.isMark '.' then skipEnds fuel ((c.skip 3).skipSpace false) else c

/-- The value of a text that is one document. -/
def parse? (text : String) : Option Yaml := do
  let cs := text.toList
  let cs := match cs with
    | '\uFEFF' :: rest => rest
    | cs => cs
  if !cs.all isAllowed then none
  else
    let c : Cursor := { chars := normalizeBreaks cs }
    let size := c.chars.length
    let start := c.skipSpace false
    let (handles, start) ← readDirectives (size + 1) false standardHandles start
    let hasDirectives := c.skipSpace false |>.isAt '%'
    if start.chars.isEmpty then none
    else if !start.isMark '-' && (hasDirectives || start.isMark '.') then none
    else
      let content :=
        if start.isMark '-' then ((start.skip 3).setMayBegin false).skipSpace false else start
      let (v, after) ← readNode handles 0 false (4 * size + 16) content
      let rest := skipEnds (size + 1) (after.skipSpace false)
      if rest.chars.isEmpty then some v else none

end CodeAtlas.Yaml
