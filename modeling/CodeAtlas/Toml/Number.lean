import CodeAtlas.Json.Reader
import CodeAtlas.Timestamp
import CodeAtlas.Toml.Basic
/-!
Numbers, dates and times.
-/

namespace CodeAtlas.Toml

/-- The digits of a number, single underscores between them left out, and what follows. `digit`
says what a digit is, and `after` whether one stood just before. -/
def readDigits (digit : Char → Bool) : Bool → List Char → List Char × List Char
  | true, '_' :: c :: rest =>
    if digit c then
      let (ds, rest) := readDigits digit true rest
      (c :: ds, rest)
    else ([], '_' :: c :: rest)
  | _, c :: rest =>
    if digit c then
      let (ds, rest) := readDigits digit true rest
      (c :: ds, rest)
    else ([], c :: rest)
  | _, [] => ([], [])

def valueOf (base : Nat) (digits : List Char) : Nat :=
  digits.foldl (fun n d => n * base + (Json.hexValue? d).getD 0) 0

/-- A whole number that fits into 64 bits with a sign. -/
def int64? (n : Int) : Option Int :=
  if -Int.pow 2 63 ≤ n && n < Int.pow 2 63 then some n else none

/-- A number in another base, behind its mark. -/
def readBased (base : Nat) (cs : List Char) : Option (Toml × List Char) :=
  let digit (c : Char) := (Json.hexValue? c).any (· < base)
  match readDigits digit false cs with
  | ([], _) => none
  | (digits, rest) => (int64? (valueOf base digits)).map fun n => (.int n, rest)

/-- The exponent of a number: none, or one that has to be read. -/
def readExponent (cs : List Char) : Option (Option Int × List Char) :=
  match cs with
  | e :: rest =>
    if e == 'e' || e == 'E' then
      let (negative, rest) := match rest with
        | '+' :: rest => (false, rest)
        | '-' :: rest => (true, rest)
        | _ => (false, rest)
      match readDigits Char.isDigit false rest with
      | ([], _) => none
      | (digits, rest) =>
        let n : Int := valueOf 10 digits
        some (some (if negative then -n else n), rest)
    else some (none, cs)
  | [] => some (none, [])

/-- A double that is not beyond the largest. -/
def double? (negative : Bool) (digits : List Char) (exponent : Int) : Option Toml :=
  let n := valueOf 10 digits
  if n == 0 then some (.float (.ofMagnitude negative 0))
  else if exponent > 400 then none
  else if exponent < -(400 + digits.length : Int) then some (.float (.ofMagnitude negative 0))
  else
    let x := Binary64.ofDecimal negative n exponent
    if x.isFinite then some (.float x) else none

/-- A number in base ten behind its sign. -/
def readDecimal (negative : Bool) (cs : List Char) : Option (Toml × List Char) :=
  match cs with
  | 'i' :: 'n' :: 'f' :: rest => some (.float (.ofMagnitude negative 0x7FF0000000000000), rest)
  | 'n' :: 'a' :: 'n' :: rest => some (.float (.ofMagnitude negative 0x7FF8000000000000), rest)
  | c :: after => do
    if !c.isDigit then none
    let (whole, rest) :=
      if c == '0' then ([c], after)
      else
        let (ds, rest) := readDigits Char.isDigit true after
        (c :: ds, rest)
    match rest with
    | '.' :: rest =>
      match readDigits Char.isDigit false rest with
      | ([], _) => none
      | (fraction, rest) =>
        let (exponent, rest) ← readExponent rest
        let x ← double? negative (whole ++ fraction) (exponent.getD 0 - fraction.length)
        some (x, rest)
    | _ =>
      match ← readExponent rest with
      | (some exponent, rest) => (double? negative whole exponent).map (·, rest)
      | (none, rest) =>
        let n : Int := valueOf 10 whole
        (int64? (if negative then -n else n)).map fun n => (.int n, rest)
  | [] => none

/-! ## Dates and times -/

/-- A time of day, without a zone. -/
def readTime (cs : List Char) : Option (List Char) := do
  let (hour, cs) ← Timestamp.readDigits 2 cs 0
  let cs ← Timestamp.readOne [':'] cs
  let (minute, cs) ← Timestamp.readDigits 2 cs 0
  let cs ← Timestamp.readOne [':'] cs
  let (second, cs) ← Timestamp.readDigits 2 cs 0
  let (_, cs) ← Timestamp.readFraction cs
  if hour ≤ 23 && minute ≤ 59 && second ≤ 60 then some cs else none

def readDate (cs : List Char) : Option (List Char) := do
  let (year, cs) ← Timestamp.readDigits 4 cs 0
  let cs ← Timestamp.readOne ['-'] cs
  let (month, cs) ← Timestamp.readDigits 2 cs 0
  let cs ← Timestamp.readOne ['-'] cs
  let (day, cs) ← Timestamp.readDigits 2 cs 0
  if 1 ≤ month && month ≤ 12 && 1 ≤ day && day ≤ Timestamp.daysInMonth year month then some cs
  else none

/-- What follows a date, with a time if one is there. -/
def readTimeBehind (cs : List Char) : List Char :=
  match cs with
  | c :: rest =>
    if c == 'T' || c == 't' || c == ' ' then
      match readTime rest with
      | none => cs
      | some cs =>
        match Timestamp.readZone cs with
        | some (_, cs) => cs
        | none => cs
    else cs
  | [] => []

/-- Whether the text begins as a date or a time does. -/
def looksLikeDate (cs : List Char) : Bool :=
  match Timestamp.readDigits 4 cs 0, Timestamp.readDigits 2 cs 0 with
  | some (_, '-' :: _), _ => true
  | _, some (_, ':' :: _) => true
  | _, _ => false

/-- A date, with a time or without, or a time. -/
def readDateTime (cs : List Char) : Option (List Char) :=
  match readDate cs with
  | some rest => some (readTimeBehind rest)
  | none => readTime cs

/-- A number, a date or a time. -/
def readNumber (cs : List Char) : Option (Toml × List Char) :=
  if looksLikeDate cs then (readDateTime cs).map (.datetime, ·)
  else match cs with
    | '0' :: 'x' :: rest => readBased 16 rest
    | '0' :: 'o' :: rest => readBased 8 rest
    | '0' :: 'b' :: rest => readBased 2 rest
    | '+' :: rest => readDecimal false rest
    | '-' :: rest => readDecimal true rest
    | _ => readDecimal false cs

end CodeAtlas.Toml
