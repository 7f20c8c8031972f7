import HindleyMilner.Proofs.MostGeneral
import HindleyMilner.Proofs.TypeEnv
/-!
# Applying a composition to an environment

Applying a substitution to an environment leaves each scheme's quantified variables out of it
(`TypeEnv.applySubst`). A substitution that binds none of them is therefore applied to every
body as it is applied to a type (`Subst.without_apply_of_unbound`), and applying two
substitutions in turn is applying any substitution that does the same to every type
(`TypeEnv.applySubst_applySubst`).

This is what inference relies on when it applies the substitution built so far to the
environment it started from, where the substitutions of the parts were applied one after the
other: for substitutions that mention no quantified variable, and where the second binds only
new variables and its targets avoid the keys of the first, the composition succeeds and applying
it is applying the two in turn (`TypeEnv.applySubst_compose`).

The condition on quantified variables cannot be dropped. With `f : ∀ 't1. 't0 -> 't1` and
`'t0 := 't1` first, the first application captures `'t1`, and binding `'t1` afterwards is
ignored under the quantifier, while the composition binds `'t0` to what `'t1` becomes.
-/

namespace HindleyMilner

namespace Subst

variable {s : Subst} {vs : List Nat} {w : Nat}

/-- A variable that `s` does not mention is not bound by it. -/
theorem find?_eq_none_of_not_mentions (h : ¬ s.Mentions w) : s.find? w = none := by
  cases hw : s.find? w with
  | none => rfl
  | some t => exact absurd (mentions_of_find? hw (Or.inl rfl)) h

/-- Leaving out variables that `s` does not bind changes nothing. -/
theorem without_apply_of_unbound (h : ∀ v ∈ vs, s.find? v = none) (t : Ty) :
    (s.without vs).apply t = s.apply t := by
  rw [apply_eq_substWith, apply_eq_substWith]
  refine Ty.substWith_congr t (fun v _ => ?_)
  rw [image_without]
  split
  · rename_i hv
    rw [image_of_find?_eq_none (h v hv)]
  · rfl

end Subst

namespace TypeEnv

variable {env : TypeEnv} {s₁ s₂ r : Subst}

/-- Applying `s₁` and then `s₂` to an environment is applying `r`, when `r` does to every type
what `s₁` and then `s₂` do, and none of the three binds a quantified variable. -/
theorem applySubst_applySubst (hr : ∀ t, r.apply t = s₂.apply (s₁.apply t))
    (hq : ∀ w, env.Quantifies w → s₁.find? w = none ∧ s₂.find? w = none ∧ r.find? w = none) :
    (env.applySubst s₁).applySubst s₂ = env.applySubst r := by
  obtain ⟨l⟩ := env
  simp only [applySubst, SortedMap.mapValues, List.map_map, SortedMap.mk.injEq]
  refine List.map_congr_left (fun e he => ?_)
  -- the scheme's quantified variables are bound by none of the three
  have hb : ∀ v ∈ e.2.vars, s₁.find? v = none ∧ s₂.find? v = none ∧ r.find? v = none :=
    fun v hv => hq v ⟨e, he, hv⟩
  simp only [Function.comp_apply,
    Subst.without_apply_of_unbound (fun v hv => (hb v hv).1),
    Subst.without_apply_of_unbound (fun v hv => (hb v hv).2.1),
    Subst.without_apply_of_unbound (fun v hv => (hb v hv).2.2), hr]

/-- Applying a composition to an environment is applying its parts in turn. When `s₂` binds only
variables that `s₁` does not, its targets avoid the keys of `s₁`, and neither mentions a
quantified variable of the environment, `s₁.compose s₂` succeeds, and applying it to the
environment is applying `s₁` and then `s₂`. -/
theorem applySubst_compose (h₁ : s₁.Canonical) (h₂ : s₂.Canonical)
    (hkeys : ∀ k ∈ s₂.keys, k ∉ s₁.keys)
    (htargets : ∀ k t, (k, t) ∈ s₂.entries → ∀ w ∈ t.vars, w ∉ s₁.keys)
    (hq : ∀ w, env.Quantifies w → ¬ s₁.Mentions w ∧ ¬ s₂.Mentions w) :
    ∃ r, s₁.compose s₂ = .ok r ∧ (env.applySubst s₁).applySubst s₂ = env.applySubst r := by
  obtain ⟨r, hr, happly⟩ := Subst.compose_of_disjoint h₂ hkeys htargets
  -- the composition mentions only what its parts mention
  have hmen := (Subst.compose_spec h₁.resolved hr).2.2.2
  refine ⟨r, hr, applySubst_applySubst happly (fun w hw => ?_)⟩
  obtain ⟨hw₁, hw₂⟩ := hq w hw
  exact ⟨Subst.find?_eq_none_of_not_mentions hw₁, Subst.find?_eq_none_of_not_mentions hw₂,
    Subst.find?_eq_none_of_not_mentions (fun h => (hmen w h).elim hw₁ hw₂)⟩

/-- `f : ∀ 't1. 't0 -> 't1` under `'t0 := 't2 list` and then `'t2 := int`: the composition binds
both, and applying it gives what the two steps give. -/
theorem applySubst_compose_list :
    Subst.Canonical ⟨[(0, .list (.var 2))]⟩ ∧ Subst.Canonical ⟨[(2, .int)]⟩ ∧
      (∀ w, Quantifies ⟨[("f", ⟨[1], .arrow (.var 0) (.var 1)⟩)]⟩ w →
        ¬ Subst.Mentions ⟨[(0, .list (.var 2))]⟩ w ∧ ¬ Subst.Mentions ⟨[(2, .int)]⟩ w) ∧
      ∃ r, Subst.compose ⟨[(0, .list (.var 2))]⟩ ⟨[(2, .int)]⟩ = .ok r ∧
        applySubst (applySubst ⟨[("f", ⟨[1], .arrow (.var 0) (.var 1)⟩)]⟩
          ⟨[(0, .list (.var 2))]⟩) ⟨[(2, .int)]⟩ =
          applySubst ⟨[("f", ⟨[1], .arrow (.var 0) (.var 1)⟩)]⟩ r :=
  have h₁ : Subst.Canonical ⟨[(0, .list (.var 2))]⟩ :=
    Subst.Reachable.canonical (.singleton (v := 0) (t := .list (.var 2)) rfl)
  have h₂ : Subst.Canonical ⟨[(2, .int)]⟩ :=
    Subst.Reachable.canonical (.singleton (v := 2) (t := .int) rfl)
  have hq : ∀ w, Quantifies ⟨[("f", ⟨[1], .arrow (.var 0) (.var 1)⟩)]⟩ w →
      ¬ Subst.Mentions ⟨[(0, .list (.var 2))]⟩ w ∧ ¬ Subst.Mentions ⟨[(2, .int)]⟩ w := by
    rintro w ⟨e, he, hw⟩
    simp only [List.mem_singleton] at he
    subst he
    simp only [List.mem_singleton] at hw
    subst hw
    simp [Subst.Mentions]
  ⟨h₁, h₂, hq, applySubst_compose h₁ h₂ (by decide)
    (fun k t hk w hw => by simp at hk; simp [hk.2] at hw) hq⟩

/-- Without the condition on quantified variables the two sides differ: `'t0 := 't1` is captured
by `∀ 't1`, which then hides `'t1 := int`, while the composition sends `'t0` to `int`. -/
example : applySubst (applySubst ⟨[("f", ⟨[1], .arrow (.var 0) (.var 1)⟩)]⟩ ⟨[(0, .var 1)]⟩)
      ⟨[(1, .int)]⟩ ≠
    applySubst ⟨[("f", ⟨[1], .arrow (.var 0) (.var 1)⟩)]⟩ ⟨[(0, .int), (1, .int)]⟩ ∧
    Subst.compose ⟨[(0, .var 1)]⟩ ⟨[(1, .int)]⟩ = .ok ⟨[(0, .int), (1, .int)]⟩ :=
  ⟨by decide, rfl⟩

end TypeEnv

end HindleyMilner
