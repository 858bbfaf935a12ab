import CodeAtlas.Text.Blank
/-!
Points in time in UTC, and their texts by RFC 3339.
-/

namespace CodeAtlas

/-- A point in time: whole seconds since 1970 and billionths of a second behind them. A leap
second counts as more than a billion of them behind the second before. -/
structure Timestamp where
  seconds : Int
  nanos : Nat
deriving DecidableEq, Repr

namespace Timestamp

/-- Days from the beginning of 1970 to a date of the Gregorian calendar. -/
def daysOfDate (year : Int) (month day : Nat) : Int :=
  -- Years begin with March, so that the leap day is the last.
  let y := if month ≤ 2 then year - 1 else year
  let era := y.fdiv 400
  let yearOfEra := y - era * 400
  let monthFromMarch : Int := (month + 9) % 12
  let dayOfYear := (153 * monthFromMarch + 2) / 5 + day - 1
  era * 146097 + yearOfEra * 365 + yearOfEra / 4 - yearOfEra / 100 + dayOfYear - 719468

/-- The date of a number of days from the beginning of 1970. -/
def dateOfDays (days : Int) : Int × Nat × Nat :=
  let z := days + 719468
  let era := z.fdiv 146097
  let dayOfEra := z - era * 146097
  let yearOfEra :=
    (dayOfEra - dayOfEra / 1460 + dayOfEra / 36524 - dayOfEra / 146096) / 365
  let dayOfYear := dayOfEra - (365 * yearOfEra + yearOfEra / 4 - yearOfEra / 100)
  let monthFromMarch := (5 * dayOfYear + 2) / 153
  let day := dayOfYear - (153 * monthFromMarch + 2) / 5 + 1
  let month := if monthFromMarch < 10 then monthFromMarch + 3 else monthFromMarch - 9
  let year := yearOfEra + era * 400 + (if month ≤ 2 then 1 else 0)
  (year, month.toNat, day.toNat)

def isLeapYear (year : Int) : Bool :=
  year.fmod 4 == 0 && (year.fmod 100 != 0 || year.fmod 400 == 0)

def daysInMonth (year : Int) (month : Nat) : Nat :=
  match month with
  | 2 => if isLeapYear year then 29 else 28
  | 4 | 6 | 9 | 11 => 30
  | _ => 31

/-- The last digits of a number, as many as asked for. -/
def padded (width n : Nat) : String :=
  let digits := Nat.toDigits 10 n
  .ofList (List.replicate (width - digits.length) '0' ++ digits)

/-- The fraction of a second, in no, three, six or nine digits. -/
def renderFraction (nanos : Nat) : String :=
  if nanos == 0 then ""
  else if nanos % 1000000 == 0 then "." ++ padded 3 (nanos / 1000000)
  else if nanos % 1000 == 0 then "." ++ padded 6 (nanos / 1000)
  else "." ++ padded 9 nanos

/-- The text of a point in time, with the given text for the zone. -/
def renderWith (zone : String) (t : Timestamp) : String :=
  let days := t.seconds.fdiv 86400
  let ofDay := (t.seconds.fmod 86400).toNat
  let (year, month, day) := dateOfDays days
  let yearText :=
    if 0 ≤ year && year ≤ 9999 then padded 4 year.toNat
    else if year < 0 then "-" ++ padded 4 year.natAbs
    else "+" ++ padded 4 year.natAbs
  let leap := t.nanos ≥ 1000000000
  let second := ofDay % 60 + (if leap then 1 else 0)
  let nanos := if leap then t.nanos - 1000000000 else t.nanos
  yearText ++ "-" ++ padded 2 month ++ "-" ++ padded 2 day ++ "T" ++
    padded 2 (ofDay / 3600) ++ ":" ++ padded 2 (ofDay / 60 % 60) ++ ":" ++ padded 2 second ++
    renderFraction nanos ++ zone

/-- The text with `Z` for the zone. -/
def render (t : Timestamp) : String := t.renderWith "Z"

/-- The text with the offset of the zone. -/
def renderOffset (t : Timestamp) : String := t.renderWith "+00:00"

/-- Reads a number of exactly so many digits. -/
def readDigits : Nat → List Char → Nat → Option (Nat × List Char)
  | 0, cs, n => some (n, cs)
  | k + 1, c :: cs, n => if c.isDigit then readDigits k cs (n * 10 + (c.toNat - 48)) else none
  | _ + 1, [], _ => none

/-- Reads one of the characters. -/
def readOne (allowed : List Char) : List Char → Option (List Char)
  | c :: cs => if allowed.contains c then some cs else none
  | [] => none

/-- Reads the fraction of a second; digits behind the ninth are dropped. -/
def readFraction : List Char → Option (Nat × List Char)
  | '.' :: cs =>
    let digits := cs.takeWhile Char.isDigit
    if digits.isEmpty then none
    else
      let kept := (digits.take 9) ++ List.replicate (9 - digits.length) '0'
      some (kept.foldl (fun n d => n * 10 + (d.toNat - 48)) 0, cs.dropWhile Char.isDigit)
  | cs => some (0, cs)

/-- Reads the offset of a zone in seconds. -/
def readZone : List Char → Option (Int × List Char)
  | 'Z' :: cs | 'z' :: cs => some (0, cs)
  | sign :: cs =>
    if sign == '+' || sign == '-' then do
      let (hours, cs) ← readDigits 2 cs 0
      let cs ← readOne [':'] cs
      let (minutes, cs) ← readDigits 2 cs 0
      if hours ≤ 23 && minutes ≤ 59 then
        let offset : Int := hours * 3600 + minutes * 60
        some (if sign == '-' then -offset else offset, cs)
      else none
    else none
  | [] => none

/-- The point in time of a text by RFC 3339, with one of the characters between date and time. -/
def parseWith? (between : List Char) (text : String) : Option Timestamp := do
  let (year, cs) ← readDigits 4 text.toList 0
  let cs ← readOne ['-'] cs
  let (month, cs) ← readDigits 2 cs 0
  let cs ← readOne ['-'] cs
  let (day, cs) ← readDigits 2 cs 0
  let cs ← readOne between cs
  let (hour, cs) ← readDigits 2 cs 0
  let cs ← readOne [':'] cs
  let (minute, cs) ← readDigits 2 cs 0
  let cs ← readOne [':'] cs
  let (second, cs) ← readDigits 2 cs 0
  let (nanos, cs) ← readFraction cs
  let (offset, cs) ← readZone cs
  if cs.isEmpty && 1 ≤ month && month ≤ 12 && 1 ≤ day && day ≤ daysInMonth year month &&
      hour ≤ 23 && minute ≤ 59 && second ≤ 60 then
    let leap := second == 60
    let ofDay : Int := hour * 3600 + minute * 60 + (if leap then 59 else second)
    some ⟨daysOfDate year month day * 86400 + ofDay - offset,
      if leap then nanos + 1000000000 else nanos⟩
  else none

/-- The point in time of a text by RFC 3339. -/
def parse? (text : String) : Option Timestamp := parseWith? ['T', 't', ' '] text

end Timestamp

end CodeAtlas
