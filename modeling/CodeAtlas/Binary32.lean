import CodeAtlas.Binary64
/-!
Single precision numbers by their bits.
-/

namespace CodeAtlas

/-- A number of the IEEE 754 format `binary32`. -/
structure Binary32 where
  bits : UInt32
deriving DecidableEq, Repr

namespace Binary32

def toFloat (x : Binary32) : Float32 := .ofBits x.bits

def isNaN (x : Binary32) : Bool := x.bits &&& 0x7FFFFFFF > 0x7F800000

/-- What an operation without a result gives: not a number, and negative. -/
def invalid : Binary32 := ⟨0xFFC00000⟩

def zero : Binary32 := ⟨0⟩

def negativeZero : Binary32 := ⟨0x80000000⟩

/-- The result of an operation on two numbers. What is not a number is handed on. -/
def binary (f : Float32 → Float32 → Float32) (x y : Binary32) : Binary32 :=
  if x.isNaN then x
  else if y.isNaN then y
  else
    let r := f x.toFloat y.toFloat
    if r.isNaN then invalid else ⟨r.toBits⟩

def add : Binary32 → Binary32 → Binary32 := binary (· + ·)

def sub : Binary32 → Binary32 → Binary32 := binary (· - ·)

def mul : Binary32 → Binary32 → Binary32 := binary (· * ·)

def div : Binary32 → Binary32 → Binary32 := binary (· / ·)

def sqrt (x : Binary32) : Binary32 := binary (fun y _ => y.sqrt) x x

def neg (x : Binary32) : Binary32 := ⟨x.bits ^^^ 0x80000000⟩

def isZero (x : Binary32) : Bool := x.bits &&& 0x7FFFFFFF == 0

/-- The place of a number in the order of all numbers: from negative ones that are no numbers over
infinity, the numbers and the two zeros to positive ones that are no numbers. -/
def rank (x : Binary32) : Int :=
  if x.bits &&& 0x80000000 == 0 then x.bits.toNat else -1 - (x.bits &&& 0x7FFFFFFF).toNat

def sum (xs : List Binary32) : Binary32 := xs.foldl add negativeZero

/-- The sum of the products of the numbers at the same places. -/
def dot (xs ys : List Binary32) : Binary32 := sum (List.zipWith mul xs ys)

/-- The single precision number next to a double. -/
def ofBinary64 (x : Binary64) : Binary32 := ⟨(Float.ofBits x.bits).toFloat32.toBits⟩

def toBinary64 (x : Binary32) : Binary64 := ⟨x.toFloat.toFloat.toBits⟩

def ofNat (n : Nat) : Binary32 := ofBinary64 (.ofRatio false n 1)

end Binary32

end CodeAtlas
