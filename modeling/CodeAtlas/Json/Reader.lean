import CodeAtlas.Json.Basic
/-!
Reading JSON texts. A text is one value with blanks around it; values nest at most 127 deep.
-/

namespace CodeAtlas.Json

/-- The characters that may stand between the parts of a text. -/
def isSpace (c : Char) : Bool := c == ' ' || c == '\n' || c == '\t' || c == '\r'

def skipSpace (cs : List Char) : List Char := cs.dropWhile isSpace

def hexValue? (c : Char) : Option Nat :=
  if '0' ≤ c && c ≤ '9' then some (c.toNat - 48)
  else if 'a' ≤ c && c ≤ 'f' then some (c.toNat - 87)
  else if 'A' ≤ c && c ≤ 'F' then some (c.toNat - 55)
  else none

/-- The number of four hexadecimal digits. -/
def hex4? : List Char → Option (Nat × List Char)
  | a :: b :: c :: d :: rest => do
    let a ← hexValue? a
    let b ← hexValue? b
    let c ← hexValue? c
    let d ← hexValue? d
    some (((a * 16 + b) * 16 + c) * 16 + d, rest)
  | _ => none

/-- The character of an escape whose four digits are given; two escapes may make one character,
and one half alone is refused. -/
def unicodeEscape? (n : Nat) (rest : List Char) : Option (Char × List Char) :=
  if 0xD800 ≤ n && n ≤ 0xDBFF then
    match rest with
    | '\\' :: 'u' :: rest => do
      let (low, rest) ← hex4? rest
      if 0xDC00 ≤ low && low ≤ 0xDFFF then
        some (Char.ofNat (0x10000 + (n - 0xD800) * 0x400 + (low - 0xDC00)), rest)
      else none
    | _ => none
  else if 0xDC00 ≤ n && n ≤ 0xDFFF then none
  else some (Char.ofNat n, rest)

/-- The rest of a string behind its opening quote. -/
def readString : Nat → List Char → List Char → Option (String × List Char)
  | 0, _, _ => none
  | fuel + 1, cs, acc =>
    match cs with
    | '"' :: rest => some (.ofList acc.reverse, rest)
    | '\\' :: 'u' :: rest => do
      let (n, rest) ← hex4? rest
      let (c, rest) ← unicodeEscape? n rest
      readString fuel rest (c :: acc)
    | '\\' :: c :: rest =>
      match c with
      | '"' | '\\' | '/' => readString fuel rest (c :: acc)
      | 'b' => readString fuel rest ('\x08' :: acc)
      | 'f' => readString fuel rest ('\x0c' :: acc)
      | 'n' => readString fuel rest ('\n' :: acc)
      | 'r' => readString fuel rest ('\r' :: acc)
      | 't' => readString fuel rest ('\t' :: acc)
      | _ => none
    | c :: rest => if c.toNat < 0x20 then none else readString fuel rest (c :: acc)
    | [] => none

def ofDigits (ds : List Char) : Nat := ds.foldl (fun n d => n * 10 + (d.toNat - 48)) 0

/-- The leading digits of a number that fit into 64 bits, and how many digits are left. -/
def leadingDigits : List Char → Nat → Nat × Nat
  | [], n => (n, 0)
  | d :: ds, n =>
    let n' := n * 10 + (d.toNat - 48)
    if n' < Nat.pow 2 64 then leadingDigits ds n' else (n, ds.length + 1)

/-- Powers of ten up to the 308th, each rounded once. -/
def powerOfTen (n : Nat) : Binary64 := .ofRatio false (Nat.pow 10 n) 1

/-- Scales a double down by the largest power of ten until the exponent is in range. -/
def scale : Nat → Binary64 → Int → Option Binary64
  | 0, x, _ => some x
  | fuel + 1, x, e =>
    if e.natAbs ≤ 308 then
      if e ≥ 0 then
        let y := x.mul (powerOfTen e.toNat)
        if y.isFinite then some y else none
      else some (x.div (powerOfTen (-e).toNat))
    else if x.isZero then some x
    else if e ≥ 0 then none
    else scale fuel (x.div (powerOfTen 308)) (e + 308)

/-- The double of a significand and a decimal exponent: both the significand and the power of ten
are rounded before they are combined. -/
def decimal? (negative : Bool) (significand : Nat) (exponent : Int) : Option Json :=
  if exponent > 100000 then
    if significand == 0 then some (.float (.ofMagnitude negative 0)) else none
  else if exponent < -100000 then some (.float (.ofMagnitude negative 0))
  else
    (scale 400 (.ofRatio false significand 1) exponent).map fun x =>
      .float (.ofMagnitude negative x.bits.toNat)

/-- A number, its sign already read. -/
def readNumber (negative : Bool) (cs : List Char) : Option (Json × List Char) :=
  let whole := cs.takeWhile Char.isDigit
  let rest := cs.dropWhile Char.isDigit
  match whole with
  | [] => none
  | '0' :: _ :: _ => none
  | _ =>
    let (significand, dropped) := leadingDigits whole 0
    let (fraction, rest, pointed) := match rest with
      | '.' :: more => (more.takeWhile Char.isDigit, more.dropWhile Char.isDigit, true)
      | _ => ([], rest, false)
    if pointed && fraction.isEmpty then none
    else
      let (significand, scaleBy) : Nat × Int :=
        if dropped > 0 then (significand, dropped)
        else
          let (s, left) := leadingDigits fraction significand
          (s, -((fraction.length - left : Nat) : Int))
      match rest with
      | e :: more =>
        if e == 'e' || e == 'E' then
          let (down, more) := match more with
            | '+' :: more => (false, more)
            | '-' :: more => (true, more)
            | _ => (false, more)
          let digits := more.takeWhile Char.isDigit
          if digits.isEmpty then none
          else
            let e : Int := if down then -(ofDigits digits : Int) else ofDigits digits
            (decimal? negative significand (scaleBy + e)).map (·, more.dropWhile Char.isDigit)
        else finish significand dropped pointed scaleBy rest
      | [] => finish significand dropped pointed scaleBy rest
where
  finish (significand dropped : Nat) (pointed : Bool) (scaleBy : Int) (rest : List Char) :
      Option (Json × List Char) :=
    if pointed || dropped > 0 then (decimal? negative significand scaleBy).map (·, rest)
    else if !negative then some (.int significand, rest)
    else if significand == 0 then some (.float (.ofMagnitude true 0), rest)
    else if significand ≤ Nat.pow 2 63 then some (.int (-(significand : Int)), rest)
    else (decimal? negative significand 0).map (·, rest)

mutual
/-- A value at the beginning of the text. -/
def readValue : Nat → Nat → List Char → Option (Json × List Char)
  | 0, _, _ => none
  | fuel + 1, depth, cs =>
    match skipSpace cs with
    | 'n' :: 'u' :: 'l' :: 'l' :: rest => some (.null, rest)
    | 't' :: 'r' :: 'u' :: 'e' :: rest => some (.bool true, rest)
    | 'f' :: 'a' :: 'l' :: 's' :: 'e' :: rest => some (.bool false, rest)
    | '"' :: rest => (readString (rest.length + 1) rest []).map fun (s, rest) => (.str s, rest)
    | '-' :: rest => readNumber true rest
    | '[' :: rest =>
      if depth == 0 then none
      else match skipSpace rest with
        | ']' :: rest => some (.arr [], rest)
        | rest => readItems fuel (depth - 1) rest []
    | '\x7b' :: rest =>
      if depth == 0 then none
      else match skipSpace rest with
        | '\x7d' :: rest => some (.obj [], rest)
        | rest =>
          (readEntries fuel (depth - 1) rest []).map fun (entries, rest) =>
            (Json.ofEntries entries, rest)
    | rest => readNumber false rest

/-- The items of an array behind its bracket or a comma. -/
def readItems : Nat → Nat → List Char → List Json → Option (Json × List Char)
  | 0, _, _, _ => none
  | fuel + 1, depth, cs, acc =>
    match readValue fuel depth cs with
    | none => none
    | some (x, rest) =>
      match skipSpace rest with
      | ',' :: rest => readItems fuel depth rest (x :: acc)
      | ']' :: rest => some (.arr (x :: acc).reverse, rest)
      | _ => none

/-- The entries of an object behind its brace or a comma. -/
def readEntries :
    Nat → Nat → List Char → List (String × Json) → Option (List (String × Json) × List Char)
  | 0, _, _, _ => none
  | fuel + 1, depth, cs, acc =>
    match skipSpace cs with
    | '"' :: rest =>
      match readString (rest.length + 1) rest [] with
      | none => none
      | some (key, rest) =>
        match skipSpace rest with
        | ':' :: rest =>
          match readValue fuel depth rest with
          | none => none
          | some (x, rest) =>
            match skipSpace rest with
            | ',' :: rest => readEntries fuel depth rest ((key, x) :: acc)
            | '\x7d' :: rest => some (((key, x) :: acc).reverse, rest)
            | _ => none
        | _ => none
    | _ => none
end

/-- How many collections may be in each other. -/
def maxDepth : Nat := 127

/-- The value of a text. -/
def parse? (text : String) : Option Json :=
  let cs := text.toList
  match readValue (cs.length + 2) maxDepth cs with
  | some (j, rest) => if (skipSpace rest).isEmpty then some j else none
  | none => none

/-- The entries of an object as they are written, with all entries of one key. -/
def parseEntries? (text : String) : Option (List (String × Json)) :=
  match skipSpace text.toList with
  | '\x7b' :: rest =>
    let entries := match skipSpace rest with
      | '\x7d' :: rest => some ([], rest)
      | rest => readEntries (rest.length + 2) (maxDepth - 1) rest []
    match entries with
    | some (entries, rest) => if (skipSpace rest).isEmpty then some entries else none
    | none => none
  | _ => none

end CodeAtlas.Json
