import HindleyMilner.Unify.Basic
/-!
# Composing substitutions

`s.compose o` merges the bindings of `o` into `s`, one at a time in ascending order of the
variable. A binding `v ↦ t` is first read through what has been merged so far. If `v` is new,
it is added (a binding of `v` to itself is dropped, and one whose target contains `v` fails);
if `v` is already bound, its two targets are unified and the unifier is merged in as well. The
result applies `s` and then `o`, made to agree where both bind a variable.

A substitution given as a list of bindings is built the same way, as the composition of their
singletons in order.
-/

namespace HindleyMilner

namespace Subst

/-- Adds the binding `v ↦ t` for a variable that `s` does not bind, with `t` read through `s`
first. A binding of `v` to itself adds nothing; one whose target contains `v` fails. -/
def extend (s : Subst) (v : Nat) (t : Ty) : Except TypeError Subst :=
  let t' := s.apply t
  if t' = .var v then .ok s
  else if t'.occurs v then .error (.occursCheck v t')
  else .ok (s.assign v t')

/-- Merges the binding `v ↦ t` into `s`. If `s` already binds `v`, the two targets (read
through `s`) must unify, and their unifier is merged in; otherwise `v ↦ t` is added by
`extend`. -/
def bind (s : Subst) (v : Nat) (t : Ty) : Except TypeError Subst :=
  match s.find? v with
  | some e => do
    let u ← unify (s.apply e) (s.apply t)
    u.entries.foldlM (fun acc b => acc.extend b.1 b.2) s
  | none => s.extend v t

/-- Merges every binding of `o` into `s`, in ascending order of the variable. -/
def compose (s o : Subst) : Except TypeError Subst :=
  o.entries.foldlM (fun acc b => acc.bind b.1 b.2) s

/-- Composes `s` with the most general unifier of `a` and `b`. -/
def mergeUnifier (s : Subst) (a b : Ty) : Except TypeError Subst := do s.compose (← unify a b)

/-- The substitution of a list of bindings: the composition of their singletons, in order. -/
def ofBindings (bs : List (Nat × Ty)) : Except TypeError Subst :=
  bs.foldlM (fun s b => do s.compose (← singleton b.1 b.2)) empty

end Subst

end HindleyMilner
