import CodeAtlas.Binary32
import CodeAtlas.Json.Basic
/-!
Points: what a collection of vectors holds.
-/

namespace CodeAtlas

/-- A vector of single precision numbers. -/
abbrev Embedding := List Binary32

/-- What is known about a point: a map from names to JSON values. -/
abbrev Payload := List (String × Json)

namespace Payload

def get? (key : String) (p : Payload) : Option Json := Keyed.get? key p

def getStr? (key : String) (p : Payload) : Option String := (p.get? key).bind Json.str?

/-- A whole number of a payload; zero if there is none. -/
def getNat (key : String) (p : Payload) : Nat := ((p.get? key).bind Json.nat?).getD 0

def toJson (p : Payload) : Json := .obj p

end Payload

/-- A point of a collection. -/
structure Point where
  id : String
  vector : Embedding
  payload : Payload

/-- A point that a search has found. -/
structure Hit where
  id : String
  score : Binary32
  payload : Payload

/-- A part of a list of points, and where the next part begins. -/
structure Page where
  points : List Point
  next : Option Json

/-- How near two vectors are. -/
inductive Distance where
  | cosine | dot | euclid
deriving DecidableEq, Repr

namespace Distance

def name : Distance → String
  | cosine => "Cosine"
  | dot => "Dot"
  | euclid => "Euclid"

def ofName? (s : String) : Option Distance := [cosine, dot, euclid].find? (·.name == s)

/-- The score of a vector for a query: the nearer, the higher. -/
def score (d : Distance) (query vector : Embedding) : Binary32 :=
  match d with
  | dot => Binary32.dot query vector
  | cosine =>
    let a := (Binary32.dot query query).sqrt
    let b := (Binary32.dot vector vector).sqrt
    if a.isZero || b.isZero then .zero else (Binary32.dot query vector).div (a.mul b)
  | euclid =>
    (Binary32.sum (List.zipWith (fun x y => (x.sub y).mul (x.sub y)) query vector)).sqrt.neg

end Distance

/-- The shape of a collection. -/
structure CollectionShape where
  name : String
  vectorSize : Nat
  distance : Distance
deriving DecidableEq, Repr

end CodeAtlas
