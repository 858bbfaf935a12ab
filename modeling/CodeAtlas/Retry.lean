import CodeAtlas.Binary64
import CodeAtlas.Error
/-!
Repeating what failed for a passing reason, with growing pauses.
-/

namespace CodeAtlas

/-- How often something is attempted, and how long the pauses are. Times are in billionths of a
second. -/
structure RetryPolicy where
  /-- All attempts, the first among them. None count as one. -/
  maxAttempts : Nat := 3
  /-- The pause behind the first attempt. -/
  baseDelay : Nat := 500000000
  /-- No pause is longer. -/
  maxDelay : Nat := 10000000000
  /-- How many times longer each pause is than the one before. -/
  multiplier : Binary64 := .ofRatio false 2 1
deriving DecidableEq, Repr

namespace RetryPolicy

/-- A single attempt. -/
def none : RetryPolicy := ⟨1, 0, 0, .ofRatio false 1 1⟩

/-- Seconds as a double: whole seconds and the rest are rounded apart. -/
def seconds (nanos : Nat) : Float :=
  Float.ofNat (nanos / 1000000000) + Float.ofNat (nanos % 1000000000) / 1000000000

/-- A power by repeated squaring, `acc` times it. -/
def power : Nat → Float → Nat → Float → Float
  | 0, _, _, acc => acc
  | fuel + 1, x, n, acc =>
    let acc := if n % 2 == 1 then acc * x else acc
    if n / 2 == 0 then acc else power fuel (x * x) (n / 2) acc

/-- A power with an exponent of 32 bits with a sign. -/
def powerInt (x : Float) (n : Int32) : Float :=
  let p := power 32 x n.toInt.natAbs 1
  if n < 0 then 1 / p else p

/-- The smaller of two numbers, or the one that is a number. -/
def smaller (x y : Float) : Float := if x.isNaN then y else if y < x then y else x

/-- A number of seconds in billionths, rounded to the nearest. -/
def toNanos (x : Float) : Nat :=
  let x : Binary64 := ⟨x.toBits⟩
  if x.isNegative || !x.isFinite then 0
  else Binary64.roundQuotient (x.ratio.1 * 1000000000) x.ratio.2

/-- The pause behind a failed attempt; attempts count from one. -/
def delayFor (p : RetryPolicy) (attempt : Nat) : Nat :=
  let factor := powerInt (.ofBits p.multiplier.bits) (Int32.ofNat (attempt - 1))
  toNanos (smaller (seconds p.baseDelay * factor) (seconds p.maxDelay))

section

variable {m : Type → Type} [Monad m] {α : Type}

/-- Attempts something once more, and after it at most so many times again. -/
def attempts (p : RetryPolicy) (pause : Nat → m Unit) (operation : m (Except Failure α)) :
    Nat → Nat → m (Except Failure α)
  | 0, _ => operation
  | left + 1, attempt => do
    match ← operation with
    | .ok a => return .ok a
    | .error e =>
      if e.isTransient then
        pause (p.delayFor attempt)
        attempts p pause operation left (attempt + 1)
      else return .error e

/-- Attempts something until it succeeds, fails for good, or has been attempted often enough. -/
def retry (p : RetryPolicy) (pause : Nat → m Unit) (operation : m (Except Failure α)) :
    m (Except Failure α) :=
  attempts p pause operation (max 1 p.maxAttempts - 1) 1

end

end RetryPolicy

end CodeAtlas
