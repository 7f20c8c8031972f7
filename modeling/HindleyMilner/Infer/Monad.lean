import HindleyMilner.Env
/-!
# The inference monad

Inference draws fresh type variables from a counter and stops at the first error. Variables
drawn before an error stay drawn: the counter is state underneath the error, so a failed
computation still reports how far the counter went.

A scheme is instantiated by drawing one fresh variable per quantified variable, in the order
the scheme lists them; a variable listed twice is replaced by its later draw. A scheme that
quantifies nothing is used as it is, without drawing.
-/

namespace HindleyMilner

/-- Computations of inference: they may fail with a `TypeError`, and they draw type variables
from a counter, which keeps its draws when they fail. -/
abbrev InferM := ExceptT TypeError (StateM Nat)

/-- The order in which the components of a tuple or of `::` see each other's bindings. -/
inductive ComponentOrder where
  /-- Each component is inferred in the environment updated by the components before it. -/
  | sequential
  /-- Each component is inferred in the environment of the whole tuple. -/
  | independent
  deriving DecidableEq, Repr

namespace InferM

/-- Runs a computation with the counter starting at `counter`; gives its outcome and the
counter after it. -/
def run {α : Type} (m : InferM α) (counter : Nat) : Except TypeError α × Nat :=
  (ExceptT.run m).run counter

/-- Takes the outcome of a computation that draws no variables. -/
def ofExcept {α : Type} : Except TypeError α → InferM α
  | .ok a => pure a
  | .error e => throw e

end InferM

/-- Draws the next variable number. -/
def freshId : InferM Nat := modifyGet fun n => (n, n + 1)

/-- Draws a fresh type variable. -/
def fresh : InferM Ty := return .var (← freshId)

/-- An instance of the scheme with fresh variables in place of the quantified ones. -/
def Scheme.instantiate (sc : Scheme) : InferM Ty := do
  if sc.vars.isEmpty then return sc.ty
  let pairs ← sc.vars.mapM (fun v => do return (v, ← freshId))
  let ρ : SortedMap Nat Nat := SortedMap.ofList pairs
  return sc.ty.rename (fun v => (ρ.find? v).getD v)

end HindleyMilner
