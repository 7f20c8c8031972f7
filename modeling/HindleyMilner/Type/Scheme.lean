import HindleyMilner.Type.Basic
/-!
# Type schemes

A scheme `∀ vars. ty` quantifies some variables of a monotype. The list of quantified variables
keeps the order and repetitions it was given; only membership matters for what the scheme means,
while the printer names variables by where they first occur in the type.
-/

namespace HindleyMilner

/-- A type scheme: the monotype `ty` with the variables `vars` quantified. -/
structure Scheme where
  /-- The quantified variables. -/
  vars : List Nat
  /-- The body of the scheme. -/
  ty : Ty
  deriving DecidableEq, Repr

namespace Scheme

/-- The scheme that quantifies nothing. -/
def mono (t : Ty) : Scheme := ⟨[], t⟩

/-- The variables of the body that are not quantified, ascending, each once. -/
def freeVars (sc : Scheme) : List Nat := varSet (sc.ty.vars.filter (· ∉ sc.vars))

@[simp] theorem mono_vars (t : Ty) : (mono t).vars = [] := rfl

@[simp] theorem mono_ty (t : Ty) : (mono t).ty = t := rfl

theorem mem_freeVars (sc : Scheme) (v : Nat) :
    v ∈ sc.freeVars ↔ v ∈ sc.ty.vars ∧ v ∉ sc.vars := by
  simp [freeVars]

end Scheme

end HindleyMilner
