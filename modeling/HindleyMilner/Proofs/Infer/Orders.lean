import HindleyMilner.Proofs.Infer.Complete
import HindleyMilner.Proofs.Infer.Sound
import HindleyMilner.Proofs.Renaming
/-!
# The two component orders agree on expressions

The components of a tuple or of `::` may be typed in sequence, each in the environment refined
by the ones before it, or independently, each in the environment as it is. Both orders are
sound and complete for the same typing rules, so they succeed on the same expressions and find
the same result up to the names of the variables.

A run in one order types the expression in the environment under its substitution, and the
other order, complete for that typing, succeeds with a result of which the first is an instance
(`Expr.infer_instance_of_other_order`). Each result being an instance of the other, they are
renamings of each other (`Expr.infer_results_renamed`).
-/

namespace HindleyMilner

open InferM

variable {env : TypeEnv} {e : Expr} {n : Nat}

/-- A successful run in one order is an instance of a run in any order: that run succeeds too,
and some `R` sends its substitution to the first run's on the free variables of the
environment, and its type to the first run's type. -/
theorem Expr.infer_instance_of_other_order {o₁ : ComponentOrder} (o₂ : ComponentOrder)
    {s₁ : Subst} {t₁ : Ty} {m₁ : Nat} (henv : env.Fresh n)
    (h₁ : (Expr.infer o₁ env e).run n = (.ok (s₁, t₁), m₁)) :
    ∃ s₂ t₂ m₂, (Expr.infer o₂ env e).run n = (.ok (s₂, t₂), m₂) ∧
      ∃ R : Nat → Ty, (∀ x ∈ env.freeVars, (s₂.image x).substWith R = s₁.image x) ∧
        t₂.substWith R = t₁ := by
  have hsc := Expr.infer_scoped e henv h₁
  -- the first run types `e` in the environment under its substitution, read as itself
  have hΓ := envRead_applySubst (henv.noCapture hsc.subst.mentions)
  have ht := Expr.infer_hasType e henv h₁ hsc.subst.resolved.absorbs hΓ
  rw [← Subst.apply_eq_substWith, hsc.apply_eq] at ht
  obtain ⟨s₂, t₂, m₂, h₂, R, hi⟩ := @Expr.infer_complete e o₂ _ _ _ _ _ henv hΓ ht
  exact ⟨s₂, t₂, m₂, h₂, R, fun x hx => hi.image_eq (henv.freeVars_lt hx), hi.ty_eq⟩

/-- Two successful runs, in any orders, find the same type and the same substitution on the
free variables of the environment, up to a permutation of the variables. -/
theorem Expr.infer_results_renamed {o₁ o₂ : ComponentOrder} {s₁ s₂ : Subst} {t₁ t₂ : Ty}
    {m₁ m₂ : Nat} (henv : env.Fresh n) (h₁ : (Expr.infer o₁ env e).run n = (.ok (s₁, t₁), m₁))
    (h₂ : (Expr.infer o₂ env e).run n = (.ok (s₂, t₂), m₂)) :
    ∃ ρ : Equiv.Perm Nat, t₁.rename ρ = t₂ ∧
      ∀ x ∈ env.freeVars, (s₁.apply (.var x)).rename ρ = s₂.apply (.var x) := by
  -- each run is an instance of the other
  obtain ⟨s₂', t₂', m₂', h₂', R₁, hs₁, ht₁⟩ := Expr.infer_instance_of_other_order o₂ henv h₁
  rw [h₂] at h₂'
  simp only [Prod.mk.injEq, Except.ok.injEq] at h₂'
  obtain ⟨⟨rfl, rfl⟩, rfl⟩ := h₂'
  obtain ⟨s₁', t₁', m₁', h₁', R₂, hs₂, ht₂⟩ := Expr.infer_instance_of_other_order o₁ henv h₂
  rw [h₁] at h₁'
  simp only [Prod.mk.injEq, Except.ok.injEq] at h₁'
  obtain ⟨⟨rfl, rfl⟩, rfl⟩ := h₁'
  -- `R₂` sends the first run's results to the second's, and `R₁` brings them back
  have hcancel : ∀ t ∈ t₁ :: env.freeVars.map s₁.image, (t.substWith R₂).substWith R₁ = t := by
    intro t ht
    rcases List.mem_cons.1 ht with rfl | ht
    · rw [ht₂, ht₁]
    · obtain ⟨x, hx, rfl⟩ := List.mem_map.1 ht
      rw [hs₂ x hx, hs₁ x hx]
  obtain ⟨ρ, hρ⟩ := Ty.exists_perm_of_substWith_cancel hcancel
  refine ⟨ρ, by rw [hρ t₁ List.mem_cons_self, ht₂], fun x hx => ?_⟩
  rw [Subst.apply_var_eq_image, Subst.apply_var_eq_image,
    hρ _ (List.mem_cons_of_mem _ (List.mem_map_of_mem hx)), hs₂ x hx]

end HindleyMilner
