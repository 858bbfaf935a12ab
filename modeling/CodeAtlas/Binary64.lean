/-!
Double precision numbers by their bits, with exact arithmetic on the integers behind them:
rounding a quotient to the nearest double, and the fewest decimal digits that read back.
-/

namespace CodeAtlas

/-- A number of the IEEE 754 format `binary64`. -/
structure Binary64 where
  bits : UInt64
deriving DecidableEq, Repr

namespace Binary64

def isNegative (x : Binary64) : Bool := x.bits >>> 63 == 1

/-- The eleven bits of the exponent. -/
def exponentField (x : Binary64) : Nat := ((x.bits >>> 52) &&& 0x7FF).toNat

/-- The fifty-two bits of the fraction. -/
def fractionField (x : Binary64) : Nat := (x.bits &&& 0xFFFFFFFFFFFFF).toNat

def isFinite (x : Binary64) : Bool := x.exponentField != 0x7FF

def isNaN (x : Binary64) : Bool := x.exponentField == 0x7FF && x.fractionField != 0

/-- The integer `m` and the power `q` with `m * 2 ^ (q - 1074)` the absolute value. -/
def parts (x : Binary64) : Nat × Nat :=
  if x.exponentField == 0 then (x.fractionField, 0)
  else (x.fractionField + Nat.pow 2 52, x.exponentField - 1)

def isZero (x : Binary64) : Bool := x.parts.1 == 0

/-- Equality of numbers: the two zeros are equal, and what is not a number equals nothing. -/
def sameNumber (x y : Binary64) : Bool :=
  !x.isNaN && !y.isNaN && (x.bits == y.bits || (x.isZero && y.isZero))

/-- A double from its sign and the size of its absolute value in the order of doubles. -/
def ofMagnitude (negative : Bool) (magnitude : Nat) : Binary64 :=
  ⟨(if negative then 0x8000000000000000 else 0) ||| UInt64.ofNat magnitude⟩

/-- A quotient to the nearest integer, a half to the even neighbour. -/
def roundQuotient (num den : Nat) : Nat :=
  let q := num / den
  let r := num % den
  if 2 * r < den then q
  else if 2 * r > den then q + 1
  else if q % 2 == 0 then q else q + 1

/-- The nearest double to `num / den`, a half to the even neighbour; infinity beyond the largest
number. -/
def ofRatio (negative : Bool) (num den : Nat) : Binary64 :=
  if num == 0 then ofMagnitude negative 0
  else
    -- `num / den` lies between `2 ^ (size - 1)` and `2 ^ (size + 1)`, shifted by 1074 places.
    let scaled := num * Nat.pow 2 1074
    let size := Nat.log2 (scaled / den)
    let q := size - 52
    let m := roundQuotient scaled (den * Nat.pow 2 q)
    let magnitude := if q == 0 then m else m + q * Nat.pow 2 52
    if magnitude ≥ 0x7FF0000000000000 then ofMagnitude negative 0x7FF0000000000000
    else ofMagnitude negative magnitude

/-- The absolute value as a quotient. -/
def ratio (x : Binary64) : Nat × Nat :=
  let (m, q) := x.parts
  (m * Nat.pow 2 q, Nat.pow 2 1074)

/-- The nearest double to `digits * 10 ^ exponent`. -/
def ofDecimal (negative : Bool) (digits : Nat) (exponent : Int) : Binary64 :=
  if exponent ≥ 0 then ofRatio negative (digits * Nat.pow 10 exponent.toNat) 1
  else ofRatio negative digits (Nat.pow 10 (-exponent).toNat)

/-- The product of two positive numbers. -/
def mul (x y : Binary64) : Binary64 :=
  ofRatio (x.isNegative != y.isNegative) (x.ratio.1 * y.ratio.1) (x.ratio.2 * y.ratio.2)

/-- The quotient of two positive numbers. -/
def div (x y : Binary64) : Binary64 :=
  ofRatio (x.isNegative != y.isNegative) (x.ratio.1 * y.ratio.2) (x.ratio.2 * y.ratio.1)

/-- The number of decimal digits of a natural number. -/
def digitCount (n : Nat) : Nat := (Nat.toDigits 10 n).length

/-- The exponent `k` with `10 ^ (k - 1) ≤ num / den < 10 ^ k`. -/
def decimalExponent (num den : Nat) : Int :=
  if num ≥ den then digitCount (num / den)
  else
    -- `10 ^ j * num ≥ den` first holds for some `j`, and then the quotient has one digit.
    let j := digitCount (den / num)
    if num * Nat.pow 10 (j - 1) ≥ den then 1 - ((j : Int) - 1) else 1 - (j : Int)

/-- The fewest decimal digits that read back as a positive finite double: `(d, e)` stands for
`d * 10 ^ e`. -/
def shortest (x : Binary64) : Nat × Int :=
  let (m, q) := x.parts
  -- All in units of a quarter of the gap above the number.
  let gap := Nat.pow 2 q
  let num := 4 * m * gap
  let den := 4 * Nat.pow 2 1074
  let low := if m == Nat.pow 2 52 && q > 0 then num - gap else num - 2 * gap
  let high := num + 2 * gap
  let closed := m % 2 == 0
  let k := decimalExponent num den
  let inside (d : Nat) (e : Int) : Bool :=
    let (a, b) :=
      if e ≥ 0 then (d * Nat.pow 10 e.toNat * den, 1) else (d * den, Nat.pow 10 (-e).toNat)
    if closed then low * b ≤ a && a ≤ high * b else low * b < a && a < high * b
  let rec go : Nat → Nat → Nat × Int
    | 0, _ => (m, 0)
    | fuel + 1, n =>
      let e : Int := k - n
      let (a, b) :=
        if e ≥ 0 then (num, den * Nat.pow 10 e.toNat) else (num * Nat.pow 10 (-e).toNat, den)
      let d := a / b
      match inside d e, inside (d + 1) e with
      | true, true =>
        let twice := 2 * (a % b)
        if twice < b || (twice == b && d % 2 == 0) then (d, e) else (d + 1, e)
      | true, false => (d, e)
      | false, true => (d + 1, e)
      | false, false => go fuel (n + 1)
  go 20 1

/-- Drops zeros from the end of the digits. -/
def stripZeros : Nat → Nat → Int → Nat × Int
  | 0, d, e => (d, e)
  | fuel + 1, d, e => if d % 10 == 0 && d != 0 then stripZeros fuel (d / 10) (e + 1) else (d, e)

/-- The text of a finite double: positional from `1e-5` up to sixteen digits in front of the
point and with at least one behind it, else with an exponent. -/
def render (x : Binary64) : String :=
  let sign := if x.isNegative then "-" else ""
  if x.isZero then sign ++ "0.0"
  else
    let (d, e) := x.shortest
    let (d, e) := stripZeros 20 d e
    let digits := (Nat.toDigits 10 d)
    let n := digits.length
    let point : Int := n + e
    let body : List Char :=
      if 0 ≤ e && point ≤ 16 then
        digits ++ List.replicate e.toNat '0' ++ ['.', '0']
      else if 0 < point && point ≤ 16 then
        digits.take point.toNat ++ '.' :: digits.drop point.toNat
      else if -5 < point && point ≤ 0 then
        ['0', '.'] ++ List.replicate (-point).toNat '0' ++ digits
      else
        let exponent := (toString (point - 1)).toList
        if n == 1 then digits ++ 'e' :: exponent
        else digits.take 1 ++ '.' :: digits.drop 1 ++ 'e' :: exponent
    sign ++ .ofList body

end Binary64

end CodeAtlas
