import CodeAtlas.Syntax.Pattern
/-!
Reading a whole source by a grammar. A source that the grammar does not cover to its end becomes
a tree with a fault at the place where the reading went wrong.
-/

namespace CodeAtlas.Grammar

variable {N : Type}

/-- Where a source that a grammar covers only up to `last` goes wrong, if lexemes were looked for
in vain up to `reach`. If the source ended too early, or the next lexeme opens a line of its own,
it is the unfinished piece that is at fault; else it is the lexeme. -/
def faultOffset (src : Source) (last reach : Nat) : Nat :=
  if reach ≥ src.size then last
  else reach

/-- The tree of a source: the root holds all that the pattern reads, comments included. -/
def parse (g : Grammar N) (top : Pattern N) (src : Source) : Tree :=
  let start := if src[0]? == some '\uFEFF' then 1 else 0
  let first := { g.trivia src start [0] with broken := false }
  match g.run src (fuelFor src.size) g.linewise top first [] 0 with
  | ⟨reach, some (place, newest)⟩ =>
    if place.next ≥ src.size then
      .node .root none 0 src.size (newest.reverse ++ place.comments)
    else
      let fault := faultOffset src place.next (max reach place.next)
      .node .root none 0 src.size [.leaf .error fault fault]
  | ⟨reach, none⟩ => .node .root none 0 src.size [.leaf .error reach reach]

end CodeAtlas.Grammar
