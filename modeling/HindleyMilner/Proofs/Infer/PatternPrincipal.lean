import HindleyMilner.Proofs.Infer.Principal
/-!
# Principal typings of patterns

Typing a pattern in an environment whose variables are all below the counter succeeds exactly
when the pattern has a typing by the rules (`PatType`), which it has only if it holds no
constructor pattern. The environment it gives is the old one extended by a typing of the pattern
at the inferred type: it agrees with the old one off the names the pattern binds, and binds each
of those names to a monotype, the last occurrence winning. Every typing of the pattern is an
instance of that one by a single substitution (`Pattern.infer_principal_typing`).

All of it comes from the two directions proved for inference: what a run gives
(`Pattern.infer_spec`) and that a run succeeds, most generally, wherever the rules type the
pattern (`Pattern.infer_most_general`); a run has one result, so the typing that the second finds
is read off the run the first describes.
-/

namespace HindleyMilner

open InferM

/-- Typing a pattern is principal and adds only the pattern's own names. In an environment whose
variables are below the counter, the run succeeds exactly when the pattern holds no constructor
pattern and has a typing. Then the environment it gives agrees with the old one on every name the
pattern does not bind, binds every name it binds to a monotype, and is the old one extended by a
typing of the pattern at the inferred type, later bindings of a name winning; and every typing of
the pattern is obtained from the inferred type and the bindings of the pattern's names by one
substitution. -/
theorem Pattern.infer_principal_typing (p : Pattern) {env : TypeEnv} {n : Nat}
    (henv : env.VarsBelow n) :
    ((∃ env' t n', (p.infer env).run n = (.ok (env', t), n')) ↔
        p.constructorFree = true ∧ ∃ τ Δ, PatType p τ Δ) ∧
      ∀ env' t n', (p.infer env).run n = (.ok (env', t), n') →
        (∀ x, x ∉ p.boundNames → env'.find? x = env.find? x) ∧
        (∀ x ∈ p.boundNames, ∃ tx, env'.find? x = some (.mono tx)) ∧
        (∃ Δ, PatType p t Δ ∧ env' = env.bindAll Δ) ∧
        ∀ τ Δ', PatType p τ Δ' → ∃ f : Nat → Ty, t.substWith f = τ ∧
          ∀ x ∈ p.boundNames, (TypeEnv.empty.bindAll Δ').find? x =
            (env'.find? x).map fun sc => .mono (sc.ty.substWith f) := by
  refine ⟨⟨?_, ?_⟩, ?_⟩
  · rintro ⟨env', t, n', h⟩
    obtain ⟨Δ, hpat, -⟩ := Pattern.infer_spec p henv h
    exact ⟨hpat.constructorFree, t, Δ, hpat⟩
  · rintro ⟨-, τ, Δ, hpat⟩
    obtain ⟨penv, tp, n', h, -⟩ := Pattern.infer_most_general p (R := Ty.var) henv hpat
    exact ⟨penv, tp, n', h⟩
  · intro env' t n' h
    obtain ⟨Δ, hpat, rfl, -⟩ := Pattern.infer_spec p henv h
    have hnames : Δ.map Prod.fst = p.boundNames := hpat.names
    refine ⟨fun x hx => TypeEnv.find?_bindAll_of_not_mem (hnames ▸ hx),
      fun x hx => TypeEnv.find?_bindAll_of_mem (hnames ▸ hx), ⟨Δ, hpat, rfl⟩,
      fun τ Δ' hpat' => ?_⟩
    -- the typing that completeness finds is read off this very run
    obtain ⟨penv, tp, n'', h', f, -, htp⟩ := Pattern.infer_most_general p (R := Ty.var) henv hpat'
    rw [h] at h'
    simp only [Prod.mk.injEq, Except.ok.injEq] at h'
    obtain ⟨⟨-, rfl⟩, -⟩ := h'
    -- the type fixes the bindings, so the given bindings are the inferred ones read through `f`
    have hΔ' : Δ' = Δ.map fun b => (b.1, b.2.substWith f) := by
      refine PatType.bindings_unique hpat' ?_
      rw [← htp]
      exact PatType.substWith f hpat
    refine ⟨f, htp, fun x hx => ?_⟩
    rw [hΔ']
    exact TypeEnv.find?_bindAll_map f (hnames ▸ hx)

/-- `x :: xs` in an environment binding `y` to `'t0`, from counter `1`: the run succeeds exactly
when the pattern has a typing. -/
theorem Pattern.infer_principal_typing_cons :
    TypeEnv.VarsBelow ⟨[("y", .mono (.var 0))]⟩ 1 ∧
      ((∃ env' t n', ((Pattern.cons (.var "x") (.var "xs")).infer
          ⟨[("y", .mono (.var 0))]⟩).run 1 = (.ok (env', t), n')) ↔
        (Pattern.cons (.var "x") (.var "xs")).constructorFree = true ∧
          ∃ τ Δ, PatType (.cons (.var "x") (.var "xs")) τ Δ) := by
  have henv : TypeEnv.VarsBelow ⟨[("y", .mono (.var 0))]⟩ 1 := by
    intro e he v hv
    simp only [List.mem_singleton] at he
    subst he
    simp only [Scheme.mono_ty, Ty.vars_var, List.mem_singleton] at hv
    omega
  exact ⟨henv, (Pattern.infer_principal_typing _ henv).1⟩

end HindleyMilner
