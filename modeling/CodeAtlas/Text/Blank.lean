/-!
Blank characters, and the operations on text that only ask which characters are blank: trimming,
splitting into words, splitting into lines.
-/

namespace CodeAtlas.Text

/-- The characters with the Unicode property `White_Space`. -/
def isBlank (c : Char) : Bool :=
  let n := c.toNat
  (0x09 ≤ n && n ≤ 0x0D) || n == 0x20 || n == 0x85 || n == 0xA0 || n == 0x1680 ||
    (0x2000 ≤ n && n ≤ 0x200A) || n == 0x2028 || n == 0x2029 || n == 0x202F || n == 0x205F ||
    n == 0x3000

/-- Drops a longest run of characters in the class from the end. -/
def dropRightWhile (p : Char → Bool) (cs : List Char) : List Char :=
  (cs.reverse.dropWhile p).reverse

def trimLeft (s : String) : String := .ofList (s.toList.dropWhile isBlank)

def trimRight (s : String) : String := .ofList (dropRightWhile isBlank s.toList)

/-- The text without blank characters at its two ends. -/
def trim (s : String) : String :=
  .ofList (dropRightWhile isBlank (s.toList.dropWhile isBlank))

/-- Whether the text has no character that is not blank. -/
def isAllBlank (s : String) : Bool := s.toList.all isBlank

/-- The text without its leading characters of the class. -/
def trimLeftWhile (p : Char → Bool) (s : String) : String := .ofList (s.toList.dropWhile p)

/-- The text without its trailing characters of the class. -/
def trimRightWhile (p : Char → Bool) (s : String) : String := .ofList (dropRightWhile p s.toList)

/-- The pieces between the characters of the class, empty pieces included: always one more
piece than there are such characters. -/
def splitOnChars (p : Char → Bool) : List Char → List (List Char)
  | [] => [[]]
  | c :: rest =>
    let pieces := splitOnChars p rest
    if p c then [] :: pieces
    else match pieces with
      | [] => [[c]]
      | first :: others => (c :: first) :: others

/-- The pieces of a text between single characters of a class. -/
def splitOn (p : Char → Bool) (s : String) : List String :=
  (splitOnChars p s.toList).map String.ofList

/-- The maximal runs of characters that are not blank. -/
def words (s : String) : List String :=
  ((splitOnChars isBlank s.toList).filter (fun w => !w.isEmpty)).map String.ofList

/-- Every run of blank characters becomes one space, and none is left at the ends. -/
def collapse (s : String) : String := " ".intercalate (words s)

/-- The lines of a text. A line ends at a line feed, and a carriage return just before it belongs
to the end; a text that ends with a line feed has no further empty line. -/
def lines (s : String) : List String :=
  let pieces := splitOnChars (· == '\n') s.toList
  let ended := pieces.dropLast.map fun l => if l.getLast? == some '\r' then l.dropLast else l
  let last := match pieces.getLast? with
    | some [] | none => []
    | some l => [l]
  (ended ++ last).map String.ofList

/-- What follows `start` in `s`, if `s` begins with it. -/
def afterStart? (start s : String) : Option String :=
  if start.toList.isPrefixOf s.toList then some (.ofList (s.toList.drop start.length)) else none

/-- What comes before `ending` in `s`, if `s` ends with it. -/
def beforeEnd? (ending s : String) : Option String :=
  if ending.toList.isSuffixOf s.toList then
    some (.ofList (s.toList.take (s.length - ending.length)))
  else none

def startsWith (start s : String) : Bool := start.toList.isPrefixOf s.toList

def endsWith (ending s : String) : Bool := ending.toList.isSuffixOf s.toList

/-- Whether `needle` occurs in the list. -/
def occursIn (needle : List Char) : List Char → Bool
  | [] => needle.isEmpty
  | c :: rest => needle.isPrefixOf (c :: rest) || occursIn needle rest

def contains (needle s : String) : Bool := occursIn needle.toList s.toList

/-- What comes before the first character of the class: the whole text if there is none. -/
def before (p : Char → Bool) (s : String) : String := .ofList (s.toList.takeWhile (!p ·))

/-- ASCII letters in lower case, all else unchanged. -/
def lowerAscii (s : String) : String := s.map Char.toLower

theorem splitOnChars_ne_nil (p : Char → Bool) (cs : List Char) : splitOnChars p cs ≠ [] := by
  induction cs with
  | nil => simp [splitOnChars]
  | cons c rest _ =>
    simp only [splitOnChars]
    split
    · simp
    · split <;> simp

end CodeAtlas.Text
