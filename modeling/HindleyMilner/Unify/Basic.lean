import HindleyMilner.Subst.Basic
import HindleyMilner.Unify.Measure
/-!
# Unification

`unify a b` finds the most general substitution that makes `a` and `b` equal, or the first
reason why none exists. It works through a list of equations from the left, keeping the
substitution found so far and the remaining equations with it applied:

* equal base types and a variable equated with itself are dropped;
* a variable and a type (the variable on the left taken first) bind the variable, unless it
  occurs in the type;
* two arrows give the equations of their domains and then of their ranges, two lists those of
  their elements, and two tuples of the same length those of their components, left to right;
* anything else fails with the two types as they stand after the bindings made so far.

Termination is by the measure of `HindleyMilner.Unify.Measure`.
-/

namespace HindleyMilner

/-- Solves the equations from the left, extending the substitution `acc`. -/
def solve (acc : Subst) : Equations → Except TypeError Subst
  | [] => .ok acc
  | (.prim p, .prim q) :: rest =>
    if p = q then solve acc rest else .error (.mismatch (.prim p) (.prim q))
  | (.var v, t) :: rest | (t, .var v) :: rest =>
    if t = .var v then solve acc rest
    else if t.occurs v then .error (.occursCheck v t)
    else solve (acc.assign v t) (Equations.substVar rest v t)
  | (.arrow a₁ b₁, .arrow a₂ b₂) :: rest => solve acc ((a₁, a₂) :: (b₁, b₂) :: rest)
  | (.list a, .list b) :: rest => solve acc ((a, b) :: rest)
  | (.tuple xs, .tuple ys) :: rest =>
    if xs.length = ys.length then solve acc (xs.zip ys ++ rest)
    else .error (.mismatch (.tuple xs) (.tuple ys))
  | (a, b) :: _ => .error (.mismatch a b)
termination_by eqs => (distinctCount (Equations.vars eqs), Equations.size eqs)
decreasing_by
  -- equal base types: the equation is dropped
  · exact Equations.measure_lt_cons _ _ rest
  -- a variable on the left equated with itself: dropped
  · exact Equations.measure_lt_cons _ _ rest
  -- a variable on the left is bound: it leaves the equations
  · exact Equations.measure_lt_substVar (by simp) (fun w hw => by simp [hw]) (by assumption)
  -- a variable on the right equated with itself cannot arise, but is dropped all the same
  · exact Equations.measure_lt_cons _ _ rest
  -- a variable on the right is bound
  · exact Equations.measure_lt_substVar (by simp) (fun w hw => by simp [hw]) (by assumption)
  -- two arrows: the same variables, two constructors fewer
  · apply Equations.measure_lt_of_size_lt
    · intro w hw
      simp only [Equations.vars_cons, List.mem_append] at hw
      rcases hw with (h | h) | (h | h) | h <;> simp [h]
    · simp only [Equations.size_cons, Ty.size]
      omega
  -- two lists: the same variables, two constructors fewer
  · apply Equations.measure_lt_of_size_lt
    · intro w hw
      simpa using hw
    · simp only [Equations.size_cons, Ty.size]
      omega
  -- two tuples: their components' variables, two constructors fewer
  · apply Equations.measure_lt_of_size_lt
    · intro w hw
      rw [Equations.vars_append, List.mem_append] at hw
      rw [Equations.vars_cons, Ty.vars_tuple, Ty.vars_tuple]
      rcases hw with hw | hw
      · rcases Equations.mem_vars_zip hw with h | h
        · exact List.mem_append_left _ (List.mem_append_left _ h)
        · exact List.mem_append_left _ (List.mem_append_right _ h)
      · exact List.mem_append_right _ hw
    · have := Equations.size_zip_le xs ys
      simp only [Equations.size_append, Equations.size_cons, Ty.size]
      omega

/-- The most general unifier of two types. -/
def unify (a b : Ty) : Except TypeError Subst := solve Subst.empty [(a, b)]

end HindleyMilner
