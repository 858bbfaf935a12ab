import CodeAtlas.Glob
/-!
Exclude patterns: which paths below a root are left out, and which directories need no look at
all.
-/

namespace CodeAtlas

/-- An exclude pattern. Of a pattern `dir/**` the part `dir` is kept too: it excludes what lies
below a directory whose path or name it matches. -/
structure ExcludePattern where
  full : Glob
  subtree : Option Glob
deriving DecidableEq, Repr

/-- A list of exclude patterns. -/
structure ExcludeSet where
  patterns : List ExcludePattern
deriving DecidableEq, Repr

namespace ExcludePattern

/-- The pattern of a text, if the text is valid. -/
def ofString? (s : String) : Option ExcludePattern :=
  (Glob.ofString? s).map fun full => ⟨full, (Text.beforeEnd? "/**" s).bind Glob.ofString?⟩

/-- The names along a path. -/
def segments (path : String) : List String :=
  (Text.splitOn (· == '/') path).filter (· != "")

/-- The path of the leading names of a path, from the shortest to the whole, each with its last
name. -/
def leadingPaths (names : List String) : List (String × String) :=
  names.mapIdx fun i name => ("/".intercalate (names.take (i + 1)), name)

/-- Whether a pattern matches a leading part of a path or one of its names. -/
def covers (base : Glob) (path : String) : Bool :=
  (leadingPaths (segments path)).any fun (leading, name) =>
    base.accepts leading || base.accepts name

def excludes (p : ExcludePattern) (path : String) : Bool :=
  p.full.accepts path || p.subtree.any (covers · path)

/-- Whether all that lies below a directory is excluded. -/
def prunes (p : ExcludePattern) (dir : String) : Bool := p.subtree.any (covers · dir)

end ExcludePattern

namespace ExcludeSet

/-- The patterns of the texts. Invalid texts are left out. -/
def ofStrings (texts : List String) : ExcludeSet := ⟨texts.filterMap ExcludePattern.ofString?⟩

def isEmpty (s : ExcludeSet) : Bool := s.patterns.isEmpty

/-- Whether a path relative to the root is excluded. -/
def excludes (s : ExcludeSet) (path : String) : Bool := s.patterns.any (·.excludes path)

/-- Whether all that lies below a directory is excluded, as its path alone tells. -/
def prunes (s : ExcludeSet) (dir : String) : Bool := s.patterns.any (·.prunes dir)

end ExcludeSet

/-- Whether a path is excluded by the patterns of some texts. -/
def isExcludedBy (texts : List String) (path : String) : Bool :=
  !texts.isEmpty && (ExcludeSet.ofStrings texts).excludes path

end CodeAtlas
