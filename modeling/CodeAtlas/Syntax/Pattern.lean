import CodeAtlas.Syntax.Lexeme
/-!
Grammars as data: parsing expressions with ordered choice, read by one total interpreter,
`Grammar.run`. A pattern either fails, or ends at a place of the source with the syntax trees it
made. What lies between two lexemes is trivia; comments in it become leaves where they stand,
except that those before the first lexeme of a node stay outside the node.
-/

namespace CodeAtlas

/-- Where a reading stands: between the end of the last lexeme and the start of the next one. -/
structure Place where
  /-- The end of the last lexeme. -/
  stop : Nat
  /-- The start of the next lexeme. -/
  next : Nat
  /-- Whether a line that could end a phrase ends in between. -/
  broken : Bool
  /-- The comments in between. -/
  comments : List Tree
  /-- The widths of the open indented blocks, innermost first. -/
  indents : List Nat

/-- Moves the end of the last lexeme to an offset and passes over the trivia behind it. -/
abbrev Trivia := Source → Nat → List Nat → Place

/-- A pattern over nonterminals `N`. -/
inductive Pattern (N : Type) where
  /-- Matches without reading. -/
  | empty
  /-- A lexeme without a name of its own. -/
  | token (kind : Kind) (lexeme : Lexeme)
  /-- A lexeme that begins where the last one ended, with no trivia in between. -/
  | adjoined (kind : Kind) (lexeme : Lexeme)
  /-- A step that reads layout: the comments to keep and the place to go on from. -/
  | layout (step : Source → Place → Option (List Tree × Place))
  | call (name : N)
  | seq (first second : Pattern N)
  /-- The second pattern is tried only where the first fails. -/
  | alt (first second : Pattern N)
  /-- As many times as possible. -/
  | many (item : Pattern N)
  /-- One node around all that the pattern reads. -/
  | node (kind : Kind) (content : Pattern N)
  /-- Gives what the pattern reads a role in the node around it. -/
  | inRole (role : Role) (content : Pattern N)
  /-- Reads the pattern apart from what was read before it. -/
  | group (content : Pattern N)
  /-- As many times as possible, reads a node and moves all that the group has read so far into
  it, in front of its own children. -/
  | growOn (step : Pattern N)
  /-- Matches without reading where the pattern matches. -/
  | peek (content : Pattern N)
  /-- Matches without reading where the pattern fails. -/
  | avoid (content : Pattern N)
  /-- Reads the pattern with line ends significant or not. -/
  | lines (significant : Bool) (content : Pattern N)

namespace Pattern

variable {N : Type}

/-- All of the patterns, one after the other. -/
def all : List (Pattern N) → Pattern N
  | [] => empty
  | [p] => p
  | p :: ps => seq p (all ps)

/-- A pattern that never matches. -/
def never : Pattern N := token .token fun _ _ => none

/-- The first of the patterns that matches. -/
def oneOf : List (Pattern N) → Pattern N
  | [] => never
  | [p] => p
  | p :: ps => alt p (oneOf ps)

def opt (p : Pattern N) : Pattern N := alt p empty

def many1 (p : Pattern N) : Pattern N := seq p (many p)

/-- A keyword. -/
def kw (s : String) : Pattern N := token .token (Lexeme.keyword s.toList)

/-- A sign, unless one of the characters of `longer` follows. -/
def op (s : String) (longer : String) : Pattern N :=
  token .token (Lexeme.sign s.toList longer.toList)

/-- A text stands for its keyword if it begins with a letter, else for its sign. -/
instance : Coe String (Pattern N) where
  coe s := if (s.toList.head?.map Char.isAlpha).getD false then kw s else op s ""

/-- One or more items between separators. -/
def sepBy1 (sep item : Pattern N) : Pattern N := seq item (many (seq sep item))

/-- The base, inside one node for each step that follows it. -/
def grow (base step : Pattern N) : Pattern N := group (seq base (growOn step))

/-- The base alone, or one node around base and rest if the rest matches. -/
def extend (kind : Kind) (base rest : Pattern N) : Pattern N := grow base (node kind rest)

/-- Items between commas, with an optional comma at the end. -/
def commaList (item : Pattern N) : Pattern N :=
  opt (seq (sepBy1 "," item) (opt ","))

end Pattern

/-- A grammar: the pattern of each nonterminal, its trivia, and whether line ends are
significant outside of all patterns that say so. -/
structure Grammar (N : Type) where
  rule : N → Pattern N
  trivia : Trivia
  linewise : Bool

/-- How a reading went: where it ended and the trees it made, newest first; and in either case
the furthest place where a lexeme was looked for in vain. -/
structure Outcome where
  reach : Nat
  result : Option (Place × List Tree)

namespace Grammar

/-- Puts a node around children given newest first, and leaves leading comments outside. -/
def enclose (kind : Kind) (at_ : Nat) (newest : List Tree) (acc : List Tree) : List Tree :=
  let children := newest.reverse
  let leading := children.takeWhile (·.kind.isComment)
  let inner := children.dropWhile (·.kind.isComment)
  let start := (inner.head?.map Tree.start).getD at_
  let stop := (newest.head?.map Tree.stop).getD at_
  .node kind none start (max start stop) inner :: (leading.reverse ++ acc)

variable {N : Type}

/-- Reads a pattern from a place on. Every step costs one unit of fuel. -/
def run (g : Grammar N) (src : Source) :
    Nat → Bool → Pattern N → Place → List Tree → Nat → Outcome
  | 0, _, _, _, _, reach => ⟨reach, none⟩
  | fuel + 1, strict, p, at_, acc, reach =>
    match p with
    | .empty => ⟨reach, some (at_, acc)⟩
    | .token kind lexeme =>
      if strict && at_.broken then ⟨max reach at_.stop, none⟩
      else match lexeme src at_.next with
        | none => ⟨max reach at_.next, none⟩
        | some stop =>
          ⟨reach, some (g.trivia src stop at_.indents,
            .leaf kind at_.next stop :: (at_.comments.reverse ++ acc))⟩
    | .adjoined kind lexeme =>
      match lexeme src at_.stop with
      | none => ⟨max reach at_.stop, none⟩
      | some stop =>
        ⟨reach, some (g.trivia src stop at_.indents, .leaf kind at_.stop stop :: acc)⟩
    | .layout step =>
      match step src at_ with
      | none => ⟨max reach at_.stop, none⟩
      | some (kept, place) => ⟨reach, some (place, kept.reverse ++ acc)⟩
    | .call name => run g src fuel strict (g.rule name) at_ acc reach
    | .seq a b =>
      match run g src fuel strict a at_ acc reach with
      | ⟨reach, none⟩ => ⟨reach, none⟩
      | ⟨reach, some (place, acc)⟩ => run g src fuel strict b place acc reach
    | .alt a b =>
      match run g src fuel strict a at_ acc reach with
      | ⟨reach, none⟩ => run g src fuel strict b at_ acc reach
      | found => found
    | .many a =>
      match run g src fuel strict a at_ acc reach with
      | ⟨reach, none⟩ => ⟨reach, some (at_, acc)⟩
      | ⟨reach, some (place, acc')⟩ =>
        if place.stop == at_.stop && place.next == at_.next then
          ⟨reach, some (place, acc')⟩
        else run g src fuel strict (.many a) place acc' reach
    | .node kind a =>
      match run g src fuel strict a at_ [] reach with
      | ⟨reach, none⟩ => ⟨reach, none⟩
      | ⟨reach, some (place, inner)⟩ => ⟨reach, some (place, enclose kind at_.stop inner acc)⟩
    | .inRole role a =>
      match run g src fuel strict a at_ [] reach with
      | ⟨reach, none⟩ => ⟨reach, none⟩
      | ⟨reach, some (place, inner)⟩ =>
        ⟨reach, some (place,
          inner.map (fun t => if t.kind.isComment then t else t.withRole role) ++ acc)⟩
    | .group a =>
      match run g src fuel strict a at_ [] reach with
      | ⟨reach, none⟩ => ⟨reach, none⟩
      | ⟨reach, some (place, inner)⟩ => ⟨reach, some (place, inner ++ acc)⟩
    | .growOn step =>
      match run g src fuel strict step at_ [] reach with
      | ⟨reach, some (place, .node kind _ _ _ cs :: leading)⟩ =>
        run g src fuel strict (.growOn step) place
          (enclose kind at_.stop (cs.reverse ++ leading ++ acc) []) reach
      | ⟨reach, _⟩ => ⟨reach, some (at_, acc)⟩
    | .peek a =>
      match run g src fuel strict a at_ [] reach with
      | ⟨_, none⟩ => ⟨reach, none⟩
      | ⟨_, some _⟩ => ⟨reach, some (at_, acc)⟩
    | .avoid a =>
      match run g src fuel strict a at_ [] reach with
      | ⟨_, none⟩ => ⟨reach, some (at_, acc)⟩
      | ⟨_, some _⟩ => ⟨max reach at_.next, none⟩
    | .lines significant a => run g src fuel significant a at_ acc reach

/-- Fuel that no reading of a source of the size uses up. -/
def fuelFor (size : Nat) : Nat := (size + 1) * 1000 + 10000

end Grammar

end CodeAtlas
