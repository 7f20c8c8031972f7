import HindleyMilner.Error
import HindleyMilner.SortedMap
/-!
# Substitutions

A substitution maps finitely many type variables to types. Every substitution that inference
builds is *resolved*: no target mentions a variable that is itself bound. Applying a resolved
substitution therefore replaces each bound variable by its target once, and applying it twice
changes nothing more.

The bindings are kept in ascending order of the variable. Besides look-up, application and
removal of some bindings, this module holds the two ways a single binding enters: `singleton`,
which refuses a variable bound to a type containing it, and `assign`, which adds a binding for a
new variable and applies it to the existing targets so that the result stays resolved.
-/

namespace HindleyMilner

/-- A substitution: bindings of type variables to types, in ascending order of the variable. -/
abbrev Subst := SortedMap Nat Ty

namespace Subst

/-- The substitution that binds nothing. -/
def empty : Subst := ⟨[]⟩

/-- A substitution is resolved when no variable of a target is bound: one application then does
all its work. -/
def Resolved (s : Subst) : Prop :=
  ∀ v t, s.find? v = some t → ∀ w ∈ t.vars, s.find? w = none

/-- Replaces every bound variable of `t` by its target, all at once. -/
def apply (s : Subst) (t : Ty) : Ty := t.substWith (fun v => (s.find? v).getD (.var v))

/-- The substitution with the bindings of the variables in `vs` removed. -/
def without (s : Subst) (vs : List Nat) : Subst := s.filter (fun v _ => v ∉ vs)

/-- Binds a variable that `s` does not bind: `v := t` is applied to the existing targets,
then `v ↦ t` is added. -/
def assign (s : Subst) (v : Nat) (t : Ty) : Subst :=
  (s.mapValues (·.substVar v t)).insert v t

/-- The substitution of the one binding `v ↦ t`; fails when `v` occurs in `t`, the variable
itself included, since `v` would then stand for an infinite type. -/
def singleton (v : Nat) (t : Ty) : Except TypeError Subst :=
  if t.occurs v then .error (.occursCheck v t) else .ok ⟨[(v, t)]⟩

@[simp] theorem apply_var (s : Subst) (v : Nat) : s.apply (.var v) = (s.find? v).getD (.var v) := by
  simp [apply, Ty.substWith]

@[simp] theorem apply_prim (s : Subst) (p : Prim) : s.apply (.prim p) = .prim p := by
  simp [apply, Ty.substWith]

@[simp] theorem apply_arrow (s : Subst) (a b : Ty) :
    s.apply (.arrow a b) = .arrow (s.apply a) (s.apply b) := by
  simp [apply, Ty.substWith]

@[simp] theorem apply_list (s : Subst) (t : Ty) : s.apply (.list t) = .list (s.apply t) := by
  simp [apply, Ty.substWith]

@[simp] theorem apply_tuple (s : Subst) (items : List Ty) :
    s.apply (.tuple items) = .tuple (items.map s.apply) := by
  simp only [apply, Ty.substWith, Ty.substWithList_eq_map]
  rfl

/-- Removing bindings: the variables of `vs` become unbound, the others keep their targets. -/
@[simp] theorem find?_without (s : Subst) (vs : List Nat) (v : Nat) :
    (s.without vs).find? v = if v ∈ vs then none else s.find? v := by
  have h := SortedMap.find?_filter_key (fun w => decide (w ∉ vs)) s v
  simp only [without] at h ⊢
  rw [h]
  by_cases hv : v ∈ vs <;> simp [hv]

/-- A new binding: `v` is bound to `t`, and `v := t` is applied to every other target. -/
@[simp] theorem find?_assign (s : Subst) (v w : Nat) (t : Ty) :
    (s.assign v t).find? w = if v = w then some t else (s.find? w).map (·.substVar v t) := by
  simp [assign]

@[simp] theorem find?_empty (v : Nat) : empty.find? v = none := rfl

@[simp] theorem apply_empty (t : Ty) : empty.apply t = t := by
  simp only [apply, find?_empty, Option.getD_none]
  exact substWith_var t
where
  /-- Replacing every variable by itself is the identity. -/
  substWith_var : ∀ t : Ty, t.substWith Ty.var = t
    | .var _ => rfl
    | .prim _ => rfl
    | .arrow a b => by simp [Ty.substWith, substWith_var a, substWith_var b]
    | .tuple items => by simp [Ty.substWith, substWithList_var items]
    | .list t => by simp [Ty.substWith, substWith_var t]
  /-- The list form of `substWith_var`. -/
  substWithList_var : ∀ ts : List Ty, Ty.substWithList Ty.var ts = ts
    | [] => rfl
    | t :: ts => by simp [Ty.substWithList, substWith_var t, substWithList_var ts]

end Subst

end HindleyMilner
