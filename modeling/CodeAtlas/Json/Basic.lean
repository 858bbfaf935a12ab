import CodeAtlas.Binary64
import CodeAtlas.Keyed
/-!
JSON values. The entries of an object are kept in the order of their keys, each key once.
-/

namespace CodeAtlas

/-- JSON values. Whole numbers and doubles are told apart even where they are equal. -/
inductive Json where
  | null
  | bool (value : Bool)
  | int (value : Int)
  | float (value : Binary64)
  | str (value : String)
  | arr (items : List Json)
  | obj (entries : List (String × Json))
deriving Repr, Inhabited

namespace Json

/-- The object of the entries; of entries with one key the last counts. -/
def ofEntries (entries : List (String × Json)) : Json :=
  obj (Keyed.ofList entries)

def nat (n : Nat) : Json := int n

def ofOption {α : Type} (f : α → Json) : Option α → Json
  | some a => f a
  | none => null

def strings (items : List String) : Json := arr (items.map str)

/-- The value of a key. -/
def get? (key : String) : Json → Option Json
  | obj entries => Keyed.get? key entries
  | _ => none

def str? : Json → Option String
  | str s => some s
  | _ => none

def bool? : Json → Option Bool
  | bool b => some b
  | _ => none

def arr? : Json → Option (List Json)
  | arr items => some items
  | _ => none

def obj? : Json → Option (List (String × Json))
  | obj entries => some entries
  | _ => none

def int? : Json → Option Int
  | int n => some n
  | _ => none

/-- A whole number that fits into 64 bits without a sign. -/
def nat? : Json → Option Nat
  | int n => if 0 ≤ n then some n.toNat else none
  | _ => none

/-- The value of a key that is present and not null. -/
def getNonNull? (key : String) (j : Json) : Option Json :=
  match j.get? key with
  | some null | none => none
  | some v => some v

def getStr? (key : String) (j : Json) : Option String := (j.get? key).bind str?

def getNat? (key : String) (j : Json) : Option Nat := (j.get? key).bind nat?

def getInt? (key : String) (j : Json) : Option Int := (j.get? key).bind int?

def getBool? (key : String) (j : Json) : Option Bool := (j.get? key).bind bool?

def getArr? (key : String) (j : Json) : Option (List Json) := (j.get? key).bind arr?

/-- The strings of an array; what is not a string is left out. -/
def strs (j : Json) : List String := (j.arr?.getD []).filterMap str?

mutual
/-- Equality of values: numbers of different kinds differ, and objects are compared by key. -/
def same : Json → Json → Bool
  | null, null => true
  | bool a, bool b => a == b
  | int a, int b => a == b
  | float a, float b => a.sameNumber b
  | str a, str b => a == b
  | arr xs, arr ys => sameItems xs ys
  | obj xs, obj ys => sameEntries xs ys
  | _, _ => false

def sameItems : List Json → List Json → Bool
  | [], [] => true
  | x :: xs, y :: ys => same x y && sameItems xs ys
  | _, _ => false

def sameEntries : List (String × Json) → List (String × Json) → Bool
  | [], [] => true
  | (k, x) :: xs, (l, y) :: ys => k == l && same x y && sameEntries xs ys
  | _, _ => false
end

instance : BEq Json := ⟨same⟩

end Json

end CodeAtlas
