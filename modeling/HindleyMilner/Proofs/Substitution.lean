import HindleyMilner.Subst.Compose
/-!
# Replacing variables

The algebra of `Ty.substWith`, on which every statement about substitutions rests:

* `Ty.substWith_congr`: a replacement depends only on what it does to the variables of the type;
* `Ty.substWith_substWith`: two replacements in a row are one replacement, by the composite;
* `Ty.substWith_eq_self`: a replacement that fixes every variable of the type fixes the type.

A substitution `s` acts on types as the replacement `s.image`, which sends a bound variable to
its target and every other variable to itself. A function `f : Nat → Ty` *absorbs* `s` when
applying `s` first changes nothing that `f` would give afterwards (`AbsorbsSubst`); the
substitutions that inference builds later absorb the ones it built earlier.
-/

namespace HindleyMilner

namespace Ty

/-- A replacement depends only on the images of the variables that occur in the type. -/
theorem substWith_congr {f g : Nat → Ty} :
    ∀ t : Ty, (∀ v ∈ t.vars, f v = g v) → t.substWith f = t.substWith g
  | .var v, h => by simpa [substWith] using h
  | .prim _, _ => rfl
  | .arrow a b, h => by
    simp only [vars_arrow, List.mem_append] at h
    simp only [substWith, substWith_congr a (fun v hv => h v (Or.inl hv)),
      substWith_congr b (fun v hv => h v (Or.inr hv))]
  | .tuple items, h => by
    simp only [vars_tuple] at h
    simp only [substWith, substWithList_congr items h]
  | .list t, h => by
    simp only [vars_list] at h
    simp only [substWith, substWith_congr t h]
where
  /-- The list form of `substWith_congr`. -/
  substWithList_congr {f g : Nat → Ty} :
      ∀ ts : List Ty, (∀ v ∈ varsList ts, f v = g v) → substWithList f ts = substWithList g ts
    | [], _ => rfl
    | t :: ts, h => by
      simp only [varsList_cons, List.mem_append] at h
      simp only [substWithList, substWith_congr t (fun v hv => h v (Or.inl hv)),
        substWithList_congr ts (fun v hv => h v (Or.inr hv))]

/-- The variables of a list of types are those of its members. -/
theorem mem_varsList {w : Nat} : ∀ {ts : List Ty}, w ∈ varsList ts ↔ ∃ t ∈ ts, w ∈ t.vars
  | [] => by simp [varsList]
  | t :: ts => by simp [mem_varsList]

/-- Two replacements in a row are the replacement by the composite. -/
theorem substWith_substWith (f g : Nat → Ty) :
    ∀ t : Ty, (t.substWith f).substWith g = t.substWith (fun v => (f v).substWith g)
  | .var _ => rfl
  | .prim _ => rfl
  | .arrow a b => by simp only [substWith, substWith_substWith f g a, substWith_substWith f g b]
  | .tuple items => by simp only [substWith, substWithList_substWithList f g items]
  | .list t => by simp only [substWith, substWith_substWith f g t]
where
  /-- The list form of `substWith_substWith`. -/
  substWithList_substWithList (f g : Nat → Ty) :
      ∀ ts : List Ty, substWithList g (substWithList f ts) =
        substWithList (fun v => (f v).substWith g) ts
    | [] => rfl
    | t :: ts => by
      simp only [substWithList, substWith_substWith f g t, substWithList_substWithList f g ts]

/-- A replacement that sends every variable of the type to itself leaves the type alone. -/
theorem substWith_eq_self {f : Nat → Ty} {t : Ty} (h : ∀ v ∈ t.vars, f v = .var v) :
    t.substWith f = t :=
  (substWith_congr t h).trans (Subst.apply_empty.substWith_var t)

/-- Renaming is replacing each variable by a variable. -/
theorem rename_eq (ρ : Nat → Nat) (t : Ty) : t.rename ρ = t.substWith (fun v => .var (ρ v)) :=
  rfl

end Ty

namespace Subst

/-- What `s` puts in place of the variable `v`: its target, or `v` itself when `v` is not bound. -/
def image (s : Subst) (v : Nat) : Ty := (s.find? v).getD (.var v)

/-- Applying a substitution replaces every variable by its image. -/
theorem apply_eq_substWith (s : Subst) (t : Ty) : s.apply t = t.substWith s.image := rfl

@[simp] theorem image_of_find? {s : Subst} {v : Nat} {t : Ty} (h : s.find? v = some t) :
    s.image v = t := by
  simp [image, h]

@[simp] theorem image_of_find?_eq_none {s : Subst} {v : Nat} (h : s.find? v = none) :
    s.image v = .var v := by
  simp [image, h]

@[simp] theorem apply_var_eq_image (s : Subst) (v : Nat) : s.apply (.var v) = s.image v := rfl

/-- With the bindings of `vs` removed, the variables of `vs` are sent to themselves. -/
theorem image_without (s : Subst) (vs : List Nat) (v : Nat) :
    (s.without vs).image v = if v ∈ vs then .var v else s.image v := by
  by_cases hv : v ∈ vs
  · rw [if_pos hv, image_of_find?_eq_none (by simp [hv])]
  · rw [if_neg hv, image, image, find?_without, if_neg hv]

/-- A variable of `s.apply t` is a variable of the image of some variable of `t`. -/
theorem mem_vars_apply {s : Subst} {t : Ty} {w : Nat} :
    w ∈ (s.apply t).vars ↔ ∃ v ∈ t.vars, w ∈ (s.image v).vars :=
  Ty.mem_vars_substWith s.image w t

/-- The image of a variable is a target of `s` or the variable itself. -/
theorem mem_vars_image {s : Subst} {v w : Nat} (h : w ∈ (s.image v).vars) :
    (∃ t, s.find? v = some t ∧ w ∈ t.vars) ∨ (s.find? v = none ∧ w = v) := by
  cases hv : s.find? v with
  | none =>
    rw [image_of_find?_eq_none hv] at h
    exact Or.inr ⟨rfl, by simpa using h⟩
  | some t =>
    rw [image_of_find? hv] at h
    exact Or.inl ⟨t, rfl, h⟩

end Subst

/-- `f` absorbs `s` when replacing by `f` after applying `s` is replacing by `f` alone: on every
variable, `f` gives the same as `f` applied to `s`'s image. -/
def AbsorbsSubst (f : Nat → Ty) (s : Subst) : Prop :=
  ∀ v, (s.image v).substWith f = f v

/-- Absorption on variables is absorption on every type. -/
theorem AbsorbsSubst.apply {f : Nat → Ty} {s : Subst} (h : AbsorbsSubst f s) (t : Ty) :
    (s.apply t).substWith f = t.substWith f := by
  rw [Subst.apply_eq_substWith, Ty.substWith_substWith]
  exact Ty.substWith_congr t (fun v _ => h v)

/-- A function that absorbs `r`, where `r` absorbs `s`, absorbs `s`. -/
theorem AbsorbsSubst.trans {f : Nat → Ty} {r s : Subst} (hf : AbsorbsSubst f r)
    (hr : AbsorbsSubst r.image s) : AbsorbsSubst f s := by
  intro v
  calc (s.image v).substWith f
      = ((s.image v).substWith r.image).substWith f := by
        rw [← Subst.apply_eq_substWith, hf.apply]
    _ = f v := by rw [hr v, ← Subst.apply_var_eq_image, hf.apply]; rfl

end HindleyMilner
