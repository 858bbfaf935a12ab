import CodeAtlas.Json.Reader
import CodeAtlas.Text.Blank
/-!
Identifiers of 128 bits, written as 32 hexadecimal digits in groups.
-/

namespace CodeAtlas

/-- An identifier. -/
structure Uuid where
  number : BitVec 128
deriving DecidableEq, Repr

namespace Uuid

def ofNat (n : Nat) : Uuid := ⟨.ofNat 128 n⟩

/-- The identifier of random bits. Six of its bits say that it is made so. -/
def ofRandom (bits : BitVec 128) : Uuid :=
  ⟨bits &&& ~~~0xF000C000000000000000#128 ||| 0x40008000000000000000#128⟩

/-- So many hexadecimal digits of a number, the last ones. -/
def hexDigits : Nat → Nat → List Char
  | 0, _ => []
  | k + 1, n => hexDigits k (n / 16) ++ [Nat.digitChar (n % 16)]

/-- The 32 digits of an identifier. -/
def digits (u : Uuid) : List Char := hexDigits 32 u.number.toNat

/-- The text of an identifier: digits in lower case, in groups of 8, 4, 4, 4 and 12. -/
@[irreducible] def render (u : Uuid) : String :=
  let ds := u.digits
  .ofList (ds.take 8 ++ '-' :: (ds.drop 8).take 4 ++ '-' :: (ds.drop 12).take 4 ++
    '-' :: (ds.drop 16).take 4 ++ '-' :: ds.drop 20)

/-- The identifier of 32 digits in any case. -/
def ofDigits? (ds : List Char) : Option Uuid := do
  if ds.length != 32 then none
  else
    let values ← ds.mapM Json.hexValue?
    some (ofNat (values.foldl (fun n d => n * 16 + d) 0))

/-- The identifier of digits in groups of 8, 4, 4, 4 and 12. -/
def ofGroups? (cs : List Char) : Option Uuid :=
  if cs.length == 36 && [8, 13, 18, 23].all (fun i => cs[i]? == some '-') then
    ofDigits? (cs.take 8 ++ (cs.drop 9).take 4 ++ (cs.drop 14).take 4 ++ (cs.drop 19).take 4 ++
      cs.drop 24)
  else none

/-- Reads an identifier: 32 digits, or groups of them, which may stand in braces or behind
`urn:uuid:`. -/
def parse? (s : String) : Option Uuid :=
  let cs := s.toList
  if cs.length == 32 then ofDigits? cs
  else match Text.afterStart? "urn:uuid:" s with
    | some rest => ofGroups? rest.toList
    | none =>
      match cs with
      | '\x7b' :: rest => if rest.getLast? == some '\x7d' then ofGroups? rest.dropLast else none
      | _ => ofGroups? cs

end Uuid

end CodeAtlas
