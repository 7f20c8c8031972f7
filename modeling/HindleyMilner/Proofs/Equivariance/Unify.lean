import HindleyMilner.Proofs.Equivariance.Data
import HindleyMilner.Proofs.Unify.Solve
/-!
# Unifying and composing commute with renaming

Unification looks at variables only to compare them and to order the bindings it makes, so a
renaming `ρ` that keeps variables apart and in order commutes with it: unifying renamed types
gives the renamed unifier, or the same failure with its types renamed (`unify_rename`). The same
holds one level up, for adding a binding (`Subst.extend_rename`), merging one
(`Subst.bind_rename`), composing (`Subst.compose_rename`) and merging a unifier
(`Subst.mergeUnifier_rename`).

The work list of `unify` is renamed equation by equation (`Equations.rename`), and `solve_rename`
follows `solve` rule by rule: each rule makes the same decision on the renamed equations, since
renaming keeps equality of variables, occurrence, the shape of a type and the length of a tuple.
-/

namespace HindleyMilner

variable {ρ : Nat → Nat}

namespace Ty

/-- A type renamed into an arrow is an arrow. -/
theorem exists_eq_arrow_of_rename {t a' b' : Ty} (h : t.rename ρ = .arrow a' b') :
    ∃ a b, t = .arrow a b := by
  cases t with
  | arrow a b => exact ⟨a, b, rfl⟩
  | _ => simp at h

/-- A type renamed into a list type is a list type. -/
theorem exists_eq_list_of_rename {t a' : Ty} (h : t.rename ρ = .list a') : ∃ a, t = .list a := by
  cases t with
  | list a => exact ⟨a, rfl⟩
  | _ => simp at h

/-- A type renamed into a tuple is a tuple. -/
theorem exists_eq_tuple_of_rename {t : Ty} {xs' : List Ty} (h : t.rename ρ = .tuple xs') :
    ∃ xs, t = .tuple xs := by
  cases t with
  | tuple xs => exact ⟨xs, rfl⟩
  | _ => simp at h

/-- A type renamed into a base type is that base type. -/
theorem eq_prim_of_rename {t : Ty} {p : Prim} (h : t.rename ρ = .prim p) : t = .prim p := by
  cases t with
  | prim q => simpa using h
  | _ => simp at h

/-- Under an injective renaming, a type is renamed into a renamed variable only if it is that
variable. -/
theorem rename_eq_var_iff (hρ : Function.Injective ρ) {t : Ty} {v : Nat} :
    t.rename ρ = .var (ρ v) ↔ t = .var v :=
  (rename_injective hρ).eq_iff (b := .var v)

end Ty

namespace Equations

/-- Renames the variables on both sides of every equation. -/
def rename (ρ : Nat → Nat) (eqs : Equations) : Equations :=
  eqs.map (fun e => (e.1.rename ρ, e.2.rename ρ))

@[simp] theorem rename_nil : rename ρ [] = [] := rfl

@[simp] theorem rename_cons (a b : Ty) (rest : Equations) :
    rename ρ ((a, b) :: rest) = (a.rename ρ, b.rename ρ) :: rename ρ rest := rfl

@[simp] theorem rename_append (e₁ e₂ : Equations) :
    rename ρ (e₁ ++ e₂) = rename ρ e₁ ++ rename ρ e₂ :=
  List.map_append

theorem rename_zip (xs ys : List Ty) :
    rename ρ (xs.zip ys) = (xs.map (Ty.rename ρ)).zip (ys.map (Ty.rename ρ)) := by
  simp [rename, List.zip_map]

/-- Replacing a variable in every equation commutes with an injective renaming. -/
theorem substVar_rename (hρ : Function.Injective ρ) (eqs : Equations) (v : Nat) (t : Ty) :
    rename ρ (eqs.substVar v t) = (rename ρ eqs).substVar (ρ v) (t.rename ρ) := by
  simp [rename, substVar, Ty.substVar_rename hρ]

end Equations

section

variable (hρ : StrictMono ρ)
include hρ

/-- Working through renamed equations from a renamed substitution renames the outcome. -/
theorem solve_rename (acc : Subst) (eqs : Equations) :
    solve (acc.rename ρ) (eqs.rename ρ) = renameResult ρ (Subst.rename ρ) (solve acc eqs) := by
  have hinj := hρ.injective
  fun_induction solve acc eqs
  case case1 acc => rw [Equations.rename_nil, solve.eq_1]; rfl
  case case2 acc q rest ih =>
    rw [Equations.rename_cons, Ty.rename_prim, solve.eq_2, if_pos rfl, ih]
  case case3 acc p q rest hne =>
    rw [Equations.rename_cons, Ty.rename_prim, Ty.rename_prim, solve.eq_2, if_neg hne]
    rfl
  case case4 acc v rest ih =>
    rw [Equations.rename_cons, Ty.rename_var, solve.eq_3, if_pos rfl, ih]
  -- a variable on the left: the same test of equality and of occurrence, then the same binding
  case case5 acc v t rest hne hocc =>
    rw [Equations.rename_cons, Ty.rename_var, solve.eq_3,
      if_neg (by rwa [Ty.rename_eq_var_iff hinj]), if_pos (by rwa [Ty.occurs_rename hinj])]
    rfl
  case case6 acc v t rest hne hocc ih =>
    rw [Equations.rename_cons, Ty.rename_var, solve.eq_3,
      if_neg (by rwa [Ty.rename_eq_var_iff hinj]), if_neg (by rwa [Ty.occurs_rename hinj]), Subst.assign_rename hρ,
      ← Equations.substVar_rename hinj, ih]
  -- a variable on the right equated with itself was taken by the rule on the left
  case case7 v _ hnot _ => exact absurd rfl (hnot v)
  -- a variable on the right, with a type that is not a variable on the left
  case case8 acc t v rest hnot hne hocc =>
    rw [Equations.rename_cons, Ty.rename_var, solve.eq_4 _ _ _ _ (fun w hw => by
        obtain ⟨u, rfl⟩ := Ty.exists_eq_var_of_substWith_eq_var hw
        exact hnot u rfl),
      if_neg (by rwa [Ty.rename_eq_var_iff hinj]), if_pos (by rwa [Ty.occurs_rename hinj])]
    rfl
  case case9 acc t v rest hnot hne hocc ih =>
    rw [Equations.rename_cons, Ty.rename_var, solve.eq_4 _ _ _ _ (fun w hw => by
        obtain ⟨u, rfl⟩ := Ty.exists_eq_var_of_substWith_eq_var hw
        exact hnot u rfl),
      if_neg (by rwa [Ty.rename_eq_var_iff hinj]), if_neg (by rwa [Ty.occurs_rename hinj]),
      Subst.assign_rename hρ, ← Equations.substVar_rename hinj, ih]
  case case10 acc a₁ b₁ a₂ b₂ rest ih =>
    rw [Equations.rename_cons, Ty.rename_arrow, Ty.rename_arrow, solve.eq_5, ← ih]
    rfl
  case case11 acc a b rest ih =>
    rw [Equations.rename_cons, Ty.rename_list, Ty.rename_list, solve.eq_6, ← ih]
    rfl
  case case12 acc xs ys rest hlen ih =>
    rw [Equations.rename_cons, Ty.rename_tuple, Ty.rename_tuple, solve.eq_7,
      if_pos (by simpa using hlen), ← ih, Equations.rename_append, Equations.rename_zip]
  case case13 acc xs ys rest hlen =>
    rw [Equations.rename_cons, Ty.rename_tuple, Ty.rename_tuple, solve.eq_7,
      if_neg (by simpa using hlen)]
    simp [TypeError.rename]
  -- two different constructors, neither a variable: renaming keeps the constructors
  case case14 acc a b rest hpp hva hvb har hli htu =>
    rw [Equations.rename_cons, solve.eq_8]
    · rfl
    · exact fun p q ha hb => hpp p q (Ty.eq_prim_of_rename ha) (Ty.eq_prim_of_rename hb)
    · intro w hw
      obtain ⟨u, rfl⟩ := Ty.exists_eq_var_of_substWith_eq_var hw
      exact hva u rfl
    · intro w hw
      obtain ⟨u, rfl⟩ := Ty.exists_eq_var_of_substWith_eq_var hw
      exact hvb u rfl
    · intro _ _ _ _ ha hb
      obtain ⟨a₁, b₁, rfl⟩ := Ty.exists_eq_arrow_of_rename ha
      obtain ⟨a₂, b₂, rfl⟩ := Ty.exists_eq_arrow_of_rename hb
      exact har a₁ b₁ a₂ b₂ rfl rfl
    · intro _ _ ha hb
      obtain ⟨a₁, rfl⟩ := Ty.exists_eq_list_of_rename ha
      obtain ⟨a₂, rfl⟩ := Ty.exists_eq_list_of_rename hb
      exact hli a₁ a₂ rfl rfl
    · intro _ _ ha hb
      obtain ⟨xs, rfl⟩ := Ty.exists_eq_tuple_of_rename ha
      obtain ⟨ys, rfl⟩ := Ty.exists_eq_tuple_of_rename hb
      exact htu xs ys rfl rfl

/-- Unifying renamed types gives the renamed unifier, or the same failure renamed. -/
theorem unify_rename (a b : Ty) :
    unify (a.rename ρ) (b.rename ρ) = renameResult ρ (Subst.rename ρ) (unify a b) :=
  solve_rename hρ Subst.empty [(a, b)]

omit hρ in
/-- A fold whose every step commutes with renaming commutes with renaming. -/
theorem foldlM_rename {α β : Type} {f : α → α} {B : β → β} {step : α → β → Except TypeError α}
    (hstep : ∀ a b, step (f a) (B b) = renameResult ρ f (step a b)) :
    ∀ (l : List β) (a : α), (l.map B).foldlM step (f a) = renameResult ρ f (l.foldlM step a)
  | [], _ => rfl
  | b :: l, a => by
    rw [List.map_cons, List.foldlM_cons, List.foldlM_cons, hstep]
    cases step a b with
    | error e => rfl
    | ok a' => exact foldlM_rename hstep l a'

namespace Subst

theorem extend_rename (s : Subst) (v : Nat) (t : Ty) :
    (s.rename ρ).extend (ρ v) (t.rename ρ) = renameResult ρ (rename ρ) (s.extend v t) := by
  have hinj := hρ.injective
  simp only [extend, apply_rename hinj]
  by_cases halias : s.apply t = .var v
  · rw [if_pos (by rw [halias]; rfl), if_pos halias]
    rfl
  · rw [if_neg (by rwa [Ty.rename_eq_var_iff hinj]), if_neg halias, Ty.occurs_rename hinj]
    cases (s.apply t).occurs v
    · simp only [Bool.false_eq_true, if_false, renameResult_ok, assign_rename hρ]
    · rfl

theorem bind_rename (s : Subst) (v : Nat) (t : Ty) :
    (s.rename ρ).bind (ρ v) (t.rename ρ) = renameResult ρ (rename ρ) (s.bind v t) := by
  have hinj := hρ.injective
  unfold bind
  rw [find?_rename hinj]
  cases s.find? v with
  | none => exact extend_rename hρ s v t
  | some e =>
    -- the two targets are unified as renamed types, and the unifier's bindings added renamed
    simp only [Option.map_some]
    rw [apply_rename hinj, apply_rename hinj, unify_rename hρ]
    cases unify (s.apply e) (s.apply t) with
    | error err => rfl
    | ok u => exact foldlM_rename (fun a b => extend_rename hρ a b.1 b.2) u.entries s

/-- Composing renamed substitutions renames the composition, or the failure. -/
theorem compose_rename (s o : Subst) :
    (s.rename ρ).compose (o.rename ρ) = renameResult ρ (rename ρ) (s.compose o) :=
  foldlM_rename (fun a b => bind_rename hρ a b.1 b.2) o.entries s

theorem mergeUnifier_rename (s : Subst) (a b : Ty) :
    (s.rename ρ).mergeUnifier (a.rename ρ) (b.rename ρ) =
      renameResult ρ (rename ρ) (s.mergeUnifier a b) := by
  simp only [mergeUnifier]
  rw [unify_rename hρ]
  cases unify a b with
  | error e => rfl
  | ok u => exact compose_rename hρ s u

end Subst

end

end HindleyMilner
