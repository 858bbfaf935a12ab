/-!
Programs that ask their surroundings for things and go on with the answers. What the surroundings
are is left open: a program is run by a function that serves its requests from a state.
-/

namespace CodeAtlas

/-- A program that gives an `α`, or asks for `r` and goes on with an answer of type `A r`. -/
inductive Program {R : Type} (A : R → Type) (α : Type) where
  | pure (a : α)
  | ask (r : R) (next : A r → Program A α)

/-- A breakdown of the surroundings, which ends a program at once. -/
structure Crash where
  message : String
deriving DecidableEq, Repr

namespace Program

variable {R : Type} {A : R → Type} {α β γ σ : Type}

def bind : Program A α → (α → Program A β) → Program A β
  | pure a, f => f a
  | ask r next, f => ask r fun answer => bind (next answer) f

instance : Monad (Program A) where
  pure := pure
  bind := bind

theorem bind_assoc (p : Program A α) (f : α → Program A β) (g : β → Program A γ) :
    bind (bind p f) g = bind p fun a => bind (f a) g := by
  induction p with
  | pure a => rfl
  | ask r next ih => exact congrArg (ask r) (funext ih)

theorem bind_pure (p : Program A α) : bind p pure = p := by
  induction p with
  | pure a => rfl
  | ask r next ih => exact congrArg (ask r) (funext ih)

instance : LawfulMonad (Program A) :=
  LawfulMonad.mk' (Program A) bind_pure (fun _ _ => rfl) bind_assoc

/-- Asks for something. -/
def perform (r : R) : Program A (A r) := ask r pure

/-- What becomes of a request in a state: an answer or a breakdown, and the state after it. -/
abbrev Service (A : R → Type) (σ : Type) := (r : R) → σ → Except Crash (A r) × σ

/-- Runs a program. -/
def run (serve : Service A σ) : Program A α → σ → Except Crash α × σ
  | pure a, s => (.ok a, s)
  | ask r next, s =>
    match serve r s with
    | (.ok answer, s) => run serve (next answer) s
    | (.error crash, s) => (.error crash, s)

/-- Running programs one after another. -/
theorem run_bind (serve : Service A σ) (p : Program A α) (f : α → Program A β) (s : σ) :
    run serve (bind p f) s =
      match run serve p s with
      | (.ok a, s) => run serve (f a) s
      | (.error crash, s) => (.error crash, s) := by
  induction p generalizing s with
  | pure a => rfl
  | ask r next ih =>
    simp only [bind, run]
    split
    · exact ih _ _
    · rfl

end Program

end CodeAtlas
