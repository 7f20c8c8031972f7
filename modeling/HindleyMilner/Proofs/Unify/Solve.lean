import HindleyMilner.Proofs.Subst.Resolved
/-!
# What unification computes

`solve` succeeds by one of seven rules at each equation; `SolvesTo acc eqs r` records a
successful run rule by rule, and `solvesTo_of_solve` says every successful run is one. The
properties of the result are then proved once per rule, by induction on the run:

* `SolvesTo.absorbs`: the result absorbs the substitution it started from and makes the two sides
  of every equation equal;
* `SolvesTo.resolved`, `SolvesTo.sorted`: the result is resolved and sorted;
* `SolvesTo.mentions`: every variable the result binds or mentions was bound or mentioned by the
  start, or occurs in the equations.

Each needs the invariant of the work list: no variable of the remaining equations is bound
(`Equations.Unbound`). For `unify a b` these give: the unifier equates `a` and `b`
(`unify_apply_eq`), is resolved and sorted, and mentions only variables of `a` and `b`.
-/

namespace HindleyMilner

/-- `SolvesTo acc eqs r`: working through `eqs` from `acc` succeeds with `r`, one rule at a
time. -/
inductive SolvesTo : Subst → Equations → Subst → Prop
  /-- No equation is left. -/
  | nil (acc : Subst) : SolvesTo acc [] acc
  /-- Two equal base types. -/
  | prim {acc : Subst} {p : Prim} {rest : Equations} {r : Subst} :
      SolvesTo acc rest r → SolvesTo acc ((.prim p, .prim p) :: rest) r
  /-- A variable equated with itself. -/
  | refl {acc : Subst} {v : Nat} {rest : Equations} {r : Subst} :
      SolvesTo acc rest r → SolvesTo acc ((.var v, .var v) :: rest) r
  /-- A variable, on either side, and a type that does not contain it: the variable is bound. -/
  | bind {acc : Subst} {v : Nat} {t a b : Ty} {rest : Equations} {r : Subst} :
      (a = .var v ∧ b = t ∨ a = t ∧ b = .var v) → t ≠ .var v → t.occurs v = false →
      SolvesTo (acc.assign v t) (rest.substVar v t) r → SolvesTo acc ((a, b) :: rest) r
  /-- Two arrows: their domains, then their ranges. -/
  | arrow {acc : Subst} {a₁ b₁ a₂ b₂ : Ty} {rest : Equations} {r : Subst} :
      SolvesTo acc ((a₁, a₂) :: (b₁, b₂) :: rest) r →
      SolvesTo acc ((.arrow a₁ b₁, .arrow a₂ b₂) :: rest) r
  /-- Two lists: their elements. -/
  | list {acc : Subst} {a b : Ty} {rest : Equations} {r : Subst} :
      SolvesTo acc ((a, b) :: rest) r → SolvesTo acc ((.list a, .list b) :: rest) r
  /-- Two tuples of one length: their components, left to right. -/
  | tuple {acc : Subst} {xs ys : List Ty} {rest : Equations} {r : Subst} :
      xs.length = ys.length → SolvesTo acc (xs.zip ys ++ rest) r →
      SolvesTo acc ((.tuple xs, .tuple ys) :: rest) r

/-- Every successful run of `solve` is a run of the rules. -/
theorem solvesTo_of_solve {acc : Subst} {eqs : Equations} {r : Subst}
    (h : solve acc eqs = .ok r) : SolvesTo acc eqs r := by
  fun_induction solve acc eqs
  -- the rules that fail give no result
  case case3 | case5 | case8 | case13 | case14 => cases h
  case case1 =>
    cases h
    exact .nil _
  case case2 ih => exact .prim (ih h)
  case case4 ih => exact .refl (ih h)
  case case6 hne hocc ih => exact .bind (Or.inl ⟨rfl, rfl⟩) hne (by simpa using hocc) (ih h)
  -- a variable on the right equated with itself was taken by the rule on the left
  case case7 v _ hnot _ => exact absurd rfl (hnot v)
  case case9 hne hocc ih => exact .bind (Or.inr ⟨rfl, rfl⟩) hne (by simpa using hocc) (ih h)
  case case10 ih => exact .arrow (ih h)
  case case11 ih => exact .list (ih h)
  case case12 hlen ih => exact .tuple hlen (ih h)

namespace Equations

/-- No variable of the equations is bound by `s`: the invariant of the work list. -/
def Unbound (s : Subst) (eqs : Equations) : Prop := ∀ w ∈ eqs.vars, s.find? w = none

theorem Unbound.of_subset {s : Subst} {e₁ e₂ : Equations} (h : Unbound s e₂)
    (hsub : ∀ w ∈ e₁.vars, w ∈ e₂.vars) : Unbound s e₁ :=
  fun w hw => h w (hsub w hw)

theorem vars_subset_cons (e : Ty × Ty) (rest : Equations) :
    ∀ w ∈ vars rest, w ∈ vars (e :: rest) := by
  intro w hw
  unfold vars at hw ⊢
  rw [List.flatMap_cons]
  exact List.mem_append_right _ hw

theorem vars_subset_arrow (a₁ b₁ a₂ b₂ : Ty) (rest : Equations) :
    ∀ w ∈ vars ((a₁, a₂) :: (b₁, b₂) :: rest),
      w ∈ vars ((.arrow a₁ b₁, .arrow a₂ b₂) :: rest) := by
  intro w hw
  simp only [vars_cons, Ty.vars_arrow, List.mem_append] at hw ⊢
  rcases hw with (h | h) | (h | h) | h <;> simp [h]

theorem vars_subset_list (a b : Ty) (rest : Equations) :
    ∀ w ∈ vars ((a, b) :: rest), w ∈ vars ((.list a, .list b) :: rest) := by
  intro w hw
  simpa using hw

theorem vars_subset_tuple (xs ys : List Ty) (rest : Equations) :
    ∀ w ∈ vars (xs.zip ys ++ rest), w ∈ vars ((.tuple xs, .tuple ys) :: rest) := by
  intro w hw
  rw [vars_append, List.mem_append] at hw
  rw [vars_cons, Ty.vars_tuple, Ty.vars_tuple]
  rcases hw with hw | hw
  · rcases mem_vars_zip hw with h | h
    · exact List.mem_append_left _ (List.mem_append_left _ h)
    · exact List.mem_append_left _ (List.mem_append_right _ h)
  · exact List.mem_append_right _ hw

/-- The variables of the equation that binds `v` to `t`. -/
theorem mem_vars_of_bind {a b t : Ty} {v : Nat} {rest : Equations}
    (hab : a = .var v ∧ b = t ∨ a = t ∧ b = .var v) :
    v ∈ vars ((a, b) :: rest) ∧ ∀ w ∈ t.vars, w ∈ vars ((a, b) :: rest) := by
  rcases hab with ⟨rfl, rfl⟩ | ⟨rfl, rfl⟩
  · exact ⟨by simp, fun w hw => by simp [hw]⟩
  · exact ⟨by simp, fun w hw => by simp [hw]⟩

/-- Binding a variable of the first equation keeps the rest unbound. -/
theorem Unbound.bind {acc : Subst} {v : Nat} {t a b : Ty} {rest : Equations}
    (h : Unbound acc ((a, b) :: rest)) (hab : a = .var v ∧ b = t ∨ a = t ∧ b = .var v)
    (hocc : t.occurs v = false) : Unbound (acc.assign v t) (rest.substVar v t) := by
  intro w hw
  have hv : v ∉ t.vars := (Ty.occurs_eq_false_iff v t).1 hocc
  rw [Subst.find?_assign]
  rcases mem_vars_substVar hw with hwt | ⟨hwr, hne⟩
  · have hwv : v ≠ w := fun hvw => hv (hvw ▸ hwt)
    rw [if_neg hwv, h w ((mem_vars_of_bind hab).2 w hwt)]
    rfl
  · rw [if_neg (Ne.symm hne), h w (vars_subset_cons _ _ w hwr)]
    rfl

end Equations

open Equations

/-- A function that sends `v` where it sends `t` does not see `v` replaced by `t`. -/
theorem substWith_substVar_of {f : Nat → Ty} {v : Nat} {t : Ty} (h : t.substWith f = f v)
    (x : Ty) : (x.substVar v t).substWith f = x.substWith f := by
  rw [Ty.substVar, Ty.substWith_substWith]
  apply Ty.substWith_congr
  intro w _
  by_cases hw : w = v
  · subst hw
    simp [h]
  · simp [hw, Ty.substWith]

/-- What `v ↦ t`, assigned in `acc`, puts in place of a variable: `t` for `v`, and otherwise
the image under `acc` with `v` replaced, when `acc` does not bind `v`. -/
theorem Subst.image_assign {acc : Subst} {v : Nat} {t : Ty} (hv : acc.find? v = none) (w : Nat) :
    (acc.assign v t).image w = if w = v then t else (acc.image w).substVar v t := by
  by_cases hwv : w = v
  · subst hwv
    simp [image]
  · rw [if_neg hwv]
    unfold image
    rw [find?_assign, if_neg (Ne.symm hwv)]
    cases hw : acc.find? w with
    | none => simp [Ty.substVar, Ty.substWith, hwv]
    | some u => rfl

/-- Two lists of one length whose corresponding members `f` makes equal have equal images. -/
theorem map_eq_map_of_zip {f : Ty → Ty} :
    ∀ {xs ys : List Ty}, xs.length = ys.length → (∀ e ∈ xs.zip ys, f e.1 = f e.2) →
      xs.map f = ys.map f
  | [], [], _, _ => rfl
  | x :: xs, y :: ys, hlen, h => by
    simp only [List.map_cons, List.zip_cons_cons, List.mem_cons] at h ⊢
    rw [h (x, y) (Or.inl rfl),
      map_eq_map_of_zip (by simpa using hlen) (fun e he => h e (Or.inr he))]
  | [], _ :: _, hlen, _ => by simp at hlen
  | _ :: _, [], hlen, _ => by simp at hlen

namespace SolvesTo

variable {acc r : Subst} {eqs : Equations}

/-- The result of a run from a resolved start absorbs the start and makes the two sides of every
equation equal. -/
theorem absorbs (h : SolvesTo acc eqs r) (hacc : acc.Resolved) (hu : Unbound acc eqs) :
    AbsorbsSubst r.image acc ∧ ∀ e ∈ eqs, r.apply e.1 = r.apply e.2 := by
  induction h with
  | nil acc => exact ⟨hacc.absorbs, by simp⟩
  | prim _ ih =>
    obtain ⟨habs, heq⟩ := ih hacc (hu.of_subset (vars_subset_cons _ _))
    refine ⟨habs, fun e he => ?_⟩
    rcases List.mem_cons.1 he with rfl | he
    · rfl
    · exact heq e he
  | refl _ ih =>
    obtain ⟨habs, heq⟩ := ih hacc (hu.of_subset (vars_subset_cons _ _))
    refine ⟨habs, fun e he => ?_⟩
    rcases List.mem_cons.1 he with rfl | he
    · rfl
    · exact heq e he
  | @bind acc v t a b rest r hab hne hocc _ ih =>
    have hv : v ∉ t.vars := (Ty.occurs_eq_false_iff v t).1 hocc
    obtain ⟨habs, heq⟩ :=
      ih (hacc.assign (fun w hw => hu w ((mem_vars_of_bind hab).2 w hw)) hv) (hu.bind hab hocc)
    have hvfree : acc.find? v = none := hu v (mem_vars_of_bind hab).1
    -- `r` sends `v` where it sends `t`: the binding `v ↦ t` is absorbed
    have hvt : t.substWith r.image = r.image v := by
      have := habs v
      rwa [Subst.image_assign hvfree, if_pos rfl] at this
    refine ⟨fun w => ?_, ?_⟩
    · have := habs w
      rw [Subst.image_assign hvfree] at this
      by_cases hwv : w = v
      · subst hwv
        rw [Subst.image_of_find?_eq_none hvfree]
        rfl
      · rwa [if_neg hwv, substWith_substVar_of hvt] at this
    · intro e he
      rcases List.mem_cons.1 he with rfl | he
      · rcases hab with ⟨rfl, rfl⟩ | ⟨rfl, rfl⟩
        · exact hvt.symm
        · exact hvt
      · have := heq (e.1.substVar v t, e.2.substVar v t) (List.mem_map_of_mem he)
        simpa only [Subst.apply_eq_substWith, substWith_substVar_of hvt] using this
  | @arrow acc a₁ b₁ a₂ b₂ rest r _ ih =>
    obtain ⟨habs, heq⟩ := ih hacc (hu.of_subset (vars_subset_arrow _ _ _ _ _))
    refine ⟨habs, fun e he => ?_⟩
    rcases List.mem_cons.1 he with rfl | he
    · simp only [Subst.apply_arrow]
      rw [heq (a₁, a₂) (by simp), heq (b₁, b₂) (by simp)]
    · exact heq e (List.mem_cons_of_mem _ (List.mem_cons_of_mem _ he))
  | @list acc a b rest r _ ih =>
    obtain ⟨habs, heq⟩ := ih hacc (hu.of_subset (vars_subset_list _ _ _))
    refine ⟨habs, fun e he => ?_⟩
    rcases List.mem_cons.1 he with rfl | he
    · simp only [Subst.apply_list]
      rw [heq (a, b) (by simp)]
    · exact heq e (List.mem_cons_of_mem _ he)
  | @tuple acc xs ys rest r hlen _ ih =>
    obtain ⟨habs, heq⟩ := ih hacc (hu.of_subset (vars_subset_tuple _ _ _))
    refine ⟨habs, fun e he => ?_⟩
    rcases List.mem_cons.1 he with rfl | he
    · simp only [Subst.apply_tuple]
      rw [map_eq_map_of_zip hlen (fun e he => heq e (List.mem_append_left _ he))]
    · exact heq e (List.mem_append_right _ he)

/-- The result of a run from a resolved start, with the equations unbound, is resolved. -/
theorem resolved (h : SolvesTo acc eqs r) (hacc : acc.Resolved) (hu : Unbound acc eqs) :
    r.Resolved := by
  induction h with
  | nil => exact hacc
  | prim _ ih => exact ih hacc (hu.of_subset (vars_subset_cons _ _))
  | refl _ ih => exact ih hacc (hu.of_subset (vars_subset_cons _ _))
  | @bind acc v t a b rest r hab _ hocc _ ih =>
    exact ih (hacc.assign (fun w hw => hu w ((mem_vars_of_bind hab).2 w hw))
      ((Ty.occurs_eq_false_iff v t).1 hocc)) (hu.bind hab hocc)
  | arrow _ ih => exact ih hacc (hu.of_subset (vars_subset_arrow _ _ _ _ _))
  | list _ ih => exact ih hacc (hu.of_subset (vars_subset_list _ _ _))
  | tuple _ _ ih => exact ih hacc (hu.of_subset (vars_subset_tuple _ _ _))

/-- The result of a run from a sorted start is sorted. -/
theorem sorted (h : SolvesTo acc eqs r) (hacc : SortedMap.Sorted acc) : SortedMap.Sorted r := by
  induction h with
  | nil => exact hacc
  | prim _ ih => exact ih hacc
  | refl _ ih => exact ih hacc
  | bind _ _ _ _ ih => exact ih (Subst.Sorted.assign hacc _ _)
  | arrow _ ih => exact ih hacc
  | list _ ih => exact ih hacc
  | tuple _ _ ih => exact ih hacc

end SolvesTo


/-- Every variable the result of a run mentions was mentioned by the start or occurs in the
equations. -/
theorem SolvesTo.mentions {acc r : Subst} {eqs : Equations} (h : SolvesTo acc eqs r) {w : Nat}
    (hw : r.Mentions w) : acc.Mentions w ∨ w ∈ eqs.vars := by
  induction h with
  | nil => exact Or.inl hw
  | prim _ ih => exact (ih hw).imp_right (vars_subset_cons _ _ w)
  | refl _ ih => exact (ih hw).imp_right (vars_subset_cons _ _ w)
  | @bind acc v t a b rest r hab _ _ _ ih =>
    rcases ih hw with hacc | hrest
    · rcases Subst.mentions_assign hacc with rfl | hwt | hacc
      · exact Or.inr (mem_vars_of_bind hab).1
      · exact Or.inr ((mem_vars_of_bind hab).2 w hwt)
      · exact Or.inl hacc
    · rcases mem_vars_substVar hrest with hwt | ⟨hwr, -⟩
      · exact Or.inr ((mem_vars_of_bind hab).2 w hwt)
      · exact Or.inr (vars_subset_cons _ _ w hwr)
  | arrow _ ih => exact (ih hw).imp_right (vars_subset_arrow _ _ _ _ _ w)
  | list _ ih => exact (ih hw).imp_right (vars_subset_list _ _ _ w)
  | tuple _ _ ih => exact (ih hw).imp_right (vars_subset_tuple _ _ _ w)

section Unify

variable {a b u : Ty} {s : Subst}

theorem unbound_unify (a b : Ty) : Unbound Subst.empty [(a, b)] := fun _ _ => rfl

/-- The unifier makes the two types equal. -/
theorem unify_apply_eq {a b : Ty} {s : Subst} (h : unify a b = .ok s) : s.apply a = s.apply b :=
  ((solvesTo_of_solve h).absorbs Subst.resolved_empty (unbound_unify a b)).2 (a, b) (by simp)

/-- A unifier is resolved. -/
theorem resolved_unify {a b : Ty} {s : Subst} (h : unify a b = .ok s) : s.Resolved :=
  (solvesTo_of_solve h).resolved Subst.resolved_empty (unbound_unify a b)

/-- A unifier is sorted. -/
theorem sorted_unify {a b : Ty} {s : Subst} (h : unify a b = .ok s) : SortedMap.Sorted s :=
  (solvesTo_of_solve h).sorted Subst.sorted_empty

/-- A unifier mentions only variables of the two types. -/
theorem mentions_unify {a b : Ty} {s : Subst} (h : unify a b = .ok s) {w : Nat}
    (hw : s.Mentions w) : w ∈ a.vars ∨ w ∈ b.vars := by
  rcases (solvesTo_of_solve h).mentions hw with hm | hm
  · exact absurd hm (Subst.not_mentions_empty w)
  · simpa using hm

end Unify

end HindleyMilner
