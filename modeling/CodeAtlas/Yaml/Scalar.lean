import CodeAtlas.Json.Reader
import CodeAtlas.Yaml.Basic
/-!
What plain scalars mean: nothing, truth values, numbers or text.
-/

namespace CodeAtlas.Yaml

/-- What a plain scalar means. -/
inductive Meaning where
  | null
  | bool (value : Bool)
  | int (value : Int)
  | float (value : Binary64)
  | text
deriving Repr

/-- Whether the scalar looks like a number with superfluous zeros, which makes it a text. -/
def hasLeadingZero (cs : List Char) : Bool :=
  let digits := match cs with
    | '-' :: rest | '+' :: rest => rest
    | cs => cs
  match digits with
  | '0' :: c :: rest => (c :: rest).all Char.isDigit
  | _ => false

/-- A natural number in a base, of at least one digit. -/
def natOf? (base : Nat) (cs : List Char) : Option Nat :=
  if cs.isEmpty then none
  else cs.foldlM (fun n c =>
    match Json.hexValue? c with
    | some d => if d < base then some (n * base + d) else none
    | none => none) 0

/-- A number without a sign in any base that a mark at its beginning names. -/
def magnitude? : List Char → Option Nat
  | '0' :: 'x' :: rest => natOf? 16 rest
  | '0' :: 'o' :: rest => natOf? 8 rest
  | '0' :: 'b' :: rest => natOf? 2 rest
  | cs => if hasLeadingZero cs then none else natOf? 10 cs

/-- A whole number with its sign. -/
def int? : List Char → Option Int
  | '+' :: '-' :: _ => none
  | '+' :: rest => (magnitude? rest).map Int.ofNat
  | '-' :: rest => (magnitude? rest).map fun n => -(n : Int)
  | cs => (magnitude? cs).map Int.ofNat

/-- Whether a number fits into 128 bits. Others are only read as doubles. -/
def isWide (n : Int) : Bool := -Int.pow 2 127 ≤ n && n < Int.pow 2 128

/-- The digits, the fraction digits and the exponent of a decimal number without a sign. -/
def decimalParts? (cs : List Char) : Option (List Char × List Char × Int) :=
  let whole := cs.takeWhile Char.isDigit
  let rest := cs.dropWhile Char.isDigit
  let (fraction, rest) := match rest with
    | '.' :: rest => (rest.takeWhile Char.isDigit, rest.dropWhile Char.isDigit)
    | rest => ([], rest)
  if whole.isEmpty && fraction.isEmpty then none
  else match rest with
    | [] => some (whole, fraction, 0)
    | e :: rest =>
      if e == 'e' || e == 'E' then
        let (negative, digits) := match rest with
          | '+' :: rest => (false, rest)
          | '-' :: rest => (true, rest)
          | rest => (false, rest)
        (natOf? 10 digits).bind fun n =>
          if digits.all Char.isDigit then
            some (whole, fraction, if negative then -(n : Int) else n)
          else none
      else none

/-- A decimal number that is not beyond the largest double. -/
def decimal? (negative : Bool) (cs : List Char) : Option Binary64 := do
  let (whole, fraction, exponent) ← decimalParts? cs
  let n ← if (whole ++ fraction).isEmpty then none else natOf? 10 (whole ++ fraction)
  let exponent := exponent - fraction.length
  if n == 0 then some (.ofMagnitude negative 0)
  else if exponent > 400 then none
  else if exponent < -(400 + (whole ++ fraction).length : Int) then some (.ofMagnitude negative 0)
  else
    let x := Binary64.ofDecimal negative n exponent
    if x.isFinite then some x else none

def infinity (negative : Bool) : Binary64 := .ofMagnitude negative 0x7FF0000000000000

/-- A double: a decimal number, an infinity, or no number at all. -/
def float? (s : String) : Option Binary64 :=
  if s ∈ [".inf", ".Inf", ".INF", "+.inf", "+.Inf", "+.INF"] then some (infinity false)
  else if s ∈ ["-.inf", "-.Inf", "-.INF"] then some (infinity true)
  else if s ∈ [".nan", ".NaN", ".NAN"] then some (.ofMagnitude false 0x7FF8000000000000)
  else match s.toList with
    | '+' :: '+' :: _ | '+' :: '-' :: _ => none
    | '+' :: rest => decimal? false rest
    | '-' :: rest => decimal? true rest
    | cs => decimal? false cs

/-- Whether a plain scalar stands for nothing, an empty one apart. -/
def isNull (s : String) : Bool := s ∈ ["null", "Null", "NULL", "~"]

/-- What a plain scalar means. -/
def meaning (s : String) : Meaning :=
  if s == "" || isNull s then .null
  else if s ∈ ["true", "True", "TRUE"] then .bool true
  else if s ∈ ["false", "False", "FALSE"] then .bool false
  else match int? s.toList with
    | some n => if isWide n then .int n else floating
    | none => floating
where
  floating : Meaning :=
    if hasLeadingZero s.toList then .text
    else match float? s with
      | some x => .float x
      | none => .text

end CodeAtlas.Yaml
