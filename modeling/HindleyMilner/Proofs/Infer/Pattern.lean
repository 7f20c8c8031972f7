import HindleyMilner.Proofs.Infer.Run
import HindleyMilner.Proofs.TypeEnv
import HindleyMilner.Proofs.Typing.Read
import HindleyMilner.Proofs.Unify.Solve
/-!
# Typing patterns

Typing a pattern from a fresh counter gives exactly what the typing rules ask for
(`Pattern.infer_spec`): bindings `Δ` such that the pattern has the inferred type and binds `Δ`
(`PatType`), the environment extended by `Δ`, and only variables drawn by this run, in the type
and in `Δ`. The unifier of a `::` pattern mentions only the pattern's own variables, so applying
it to the environment touches only the pattern's bindings.
-/

namespace HindleyMilner

open InferM

mutual
/-- No constructor pattern occurs in the pattern, at any depth. -/
def Pattern.constructorFree : Pattern → Bool
  | .any => true
  | .lit _ => true
  | .var _ => true
  | .cons h t => h.constructorFree && t.constructorFree
  | .tuple items => Pattern.constructorFreeList items
  | .ctor _ _ => false
/-- No constructor pattern occurs in any pattern of the list. -/
def Pattern.constructorFreeList : List Pattern → Bool
  | [] => true
  | p :: ps => p.constructorFree && Pattern.constructorFreeList ps
end

mutual

/-- A pattern with a typing holds no constructor pattern: the rules type none. -/
theorem PatType.constructorFree {p : Pattern} {t : Ty} {Δ : List (String × Ty)} :
    PatType p t Δ → p.constructorFree = true
  | .any _ => rfl
  | .lit _ => rfl
  | .var _ _ => rfl
  | .cons hh ht => by
    simp [Pattern.constructorFree, PatType.constructorFree hh, PatType.constructorFree ht]
  | .tuple hs => by
    simpa [Pattern.constructorFree] using PatTypes.constructorFree hs

/-- The list form of `PatType.constructorFree`. -/
theorem PatTypes.constructorFree {ps : List Pattern} {ts : List Ty} {Δ : List (String × Ty)} :
    PatTypes ps ts Δ → Pattern.constructorFreeList ps = true
  | .nil => rfl
  | .cons h hs => by
    simp [Pattern.constructorFreeList, PatType.constructorFree h, PatTypes.constructorFree hs]

end

mutual

/-- A typing of a pattern binds exactly the names the pattern binds, in order. -/
theorem PatType.names {p : Pattern} {t : Ty} {Δ : List (String × Ty)} :
    PatType p t Δ → Δ.map Prod.fst = p.boundNames
  | .any _ => rfl
  | .lit _ => rfl
  | .var _ _ => rfl
  | .cons hh ht => by
    rw [List.map_append, PatType.names hh, PatType.names ht]
    rfl
  | .tuple hs => by
    rw [PatTypes.names hs]
    rfl

/-- The list form of `PatType.names`. -/
theorem PatTypes.names {ps : List Pattern} {ts : List Ty} {Δ : List (String × Ty)} :
    PatTypes ps ts Δ → Δ.map Prod.fst = Pattern.boundNamesList ps
  | .nil => rfl
  | .cons h hs => by
    rw [List.map_append, PatType.names h, PatTypes.names hs]
    rfl

end

mutual

/-- The type at which a pattern is typed fixes the types of its bindings. -/
theorem PatType.bindings_unique {p : Pattern} {t : Ty} {Δ₁ Δ₂ : List (String × Ty)} :
    PatType p t Δ₁ → PatType p t Δ₂ → Δ₁ = Δ₂
  | .any _, .any _ => rfl
  | .lit _, .lit _ => rfl
  | .var _ _, .var _ _ => rfl
  | .cons hh ht, .cons hh' ht' => by
    rw [PatType.bindings_unique hh hh', PatType.bindings_unique ht ht']
  | .tuple hs, .tuple hs' => PatTypes.bindings_unique hs hs'

/-- The list form of `PatType.bindings_unique`. -/
theorem PatTypes.bindings_unique {ps : List Pattern} {ts : List Ty} {Δ₁ Δ₂ : List (String × Ty)} :
    PatTypes ps ts Δ₁ → PatTypes ps ts Δ₂ → Δ₁ = Δ₂
  | .nil, .nil => rfl
  | .cons h hs, .cons h' hs' => by
    rw [PatType.bindings_unique h h', PatTypes.bindings_unique hs hs']

end

/-- What typing a pattern from counter `n` to `n'` in `env` gives: bindings `Δ` of drawn types,
at which the pattern has type `tp`, and the environment extended by them. -/
def PatternResult (p : Pattern) (env : TypeEnv) (n n' : Nat) (penv : TypeEnv) (tp : Ty) : Prop :=
  ∃ Δ, PatType p tp Δ ∧ penv = env.bindAll Δ ∧ n ≤ n' ∧ (∀ v ∈ tp.vars, n ≤ v ∧ v < n') ∧
    ∀ b ∈ Δ, ∀ v ∈ b.2.vars, n ≤ v ∧ v < n'

/-- The list form of `PatternResult`. -/
def PatternsResult (ps : List Pattern) (env : TypeEnv) (n n' : Nat) (penv : TypeEnv)
    (ts : List Ty) : Prop :=
  ∃ Δ, PatTypes ps ts Δ ∧ penv = env.bindAll Δ ∧ n ≤ n' ∧ (∀ v ∈ Ty.varsList ts, n ≤ v ∧ v < n') ∧
    ∀ b ∈ Δ, ∀ v ∈ b.2.vars, n ≤ v ∧ v < n'

/-- A variable of `u.apply t` is one of `t` or mentioned by `u`. -/
theorem Subst.mem_vars_apply_of {u : Subst} {t : Ty} {w : Nat} (h : w ∈ (u.apply t).vars) :
    w ∈ t.vars ∨ u.Mentions w := by
  obtain ⟨v, hv, hw⟩ := Subst.mem_vars_apply.1 h
  rcases Subst.mem_vars_image hw with ⟨tv, htv, hwt⟩ | ⟨-, rfl⟩
  · exact Or.inr (Subst.mentions_of_find? htv (Or.inr hwt))
  · exact Or.inl hv

mutual

/-- Typing a pattern in an environment whose variables are below the counter gives what the
typing rules ask for, with only variables drawn by the run in the type and the bindings. -/
theorem Pattern.infer_spec :
    ∀ (p : Pattern) {env : TypeEnv} {n n' : Nat} {penv : TypeEnv} {tp : Ty}, env.VarsBelow n →
      (p.infer env).run n = (.ok (penv, tp), n') → PatternResult p env n n' penv tp
  | .any, env, n, n', penv, tp, _, h => by
    simp only [Pattern.infer, run_bind_eq_ok, run_fresh, run_pure, Prod.mk.injEq,
      Except.ok.injEq] at h
    obtain ⟨a, n₁, ⟨rfl, rfl⟩, ⟨rfl, rfl⟩, rfl⟩ := h
    exact ⟨[], .any _, rfl, Nat.le_succ n, by simp, by simp⟩
  | .lit c, env, n, n', penv, tp, _, h => by
    simp only [Pattern.infer, run_bind_eq_ok, run_pure, Prod.mk.injEq, Except.ok.injEq] at h
    obtain ⟨a, n₁, hc, ⟨rfl, rfl⟩, rfl⟩ := h
    obtain ⟨hct, hn, hvars⟩ := Const.infer_spec hc
    exact ⟨[], .lit hct, rfl, hn, hvars, by simp⟩
  | .var x, env, n, n', penv, tp, _, h => by
    simp only [Pattern.infer, run_bind_eq_ok, run_fresh, run_pure, Prod.mk.injEq,
      Except.ok.injEq] at h
    obtain ⟨a, n₁, ⟨rfl, rfl⟩, ⟨rfl, rfl⟩, rfl⟩ := h
    exact ⟨[(x, .var n)], .var x _, rfl, Nat.le_succ n, by simp, by simp⟩
  | .cons hp tp', env, n, n', penv, tp, henv, h => by
    simp only [Pattern.infer, run_bind_eq_ok, run_pure, run_ofExcept_eq_ok, Prod.mk.injEq,
      Except.ok.injEq] at h
    obtain ⟨⟨env₁, th⟩, n₁, h₁, ⟨env₂, tt⟩, m, h₂, u, n₂, ⟨hu, rfl⟩, ⟨rfl, rfl⟩, rfl⟩ := h
    obtain ⟨Δ₁, hpat₁, rfl, hn₁, hth, hΔ₁⟩ := Pattern.infer_spec hp henv h₁
    obtain ⟨Δ₂, hpat₂, rfl, hn₂, htt, hΔ₂⟩ :=
      Pattern.infer_spec tp' (henv.bindAll hn₁ (fun b hb v hv => (hΔ₁ b hb v hv).2)) h₂
    -- the unifier mentions only variables drawn for the pattern
    have hmen : ∀ w, u.Mentions w → n ≤ w ∧ w < n₂ := by
      intro w hw
      rcases mentions_unify hu hw with hw | hw
      · have := hth w (by simpa using hw)
        omega
      · have := htt w hw
        omega
    have hrange : ∀ t : Ty, (∀ v ∈ t.vars, n ≤ v ∧ v < n₂) → ∀ v ∈ (u.apply t).vars,
        n ≤ v ∧ v < n₂ := by
      intro t ht v hv
      rcases Subst.mem_vars_apply_of hv with hv | hv
      · exact ht v hv
      · exact hmen v hv
    refine ⟨(Δ₁ ++ Δ₂).map fun b => (b.1, u.apply b.2), ?_, ?_, by omega, ?_, ?_⟩
    · -- both parts at the unified types: the tail's type is the list of the head's
      have htail : u.apply tt = .list (u.apply th) := by
        rw [← unify_apply_eq hu, Subst.apply_list]
      rw [htail, List.map_append]
      exact .cons (PatType.substWith u.image hpat₁) (htail ▸ PatType.substWith u.image hpat₂)
    · -- the environment's own variables are below `n`, so the unifier leaves it alone
      have hself : env.applySubst u = env := TypeEnv.applySubst_eq_self (fun e he v hv => by
        cases hfind : u.find? v with
        | none => rfl
        | some t =>
          have := hmen v (Subst.mentions_of_find? hfind (Or.inl rfl))
          have := henv e he v hv
          omega)
      rw [← TypeEnv.bindAll_append, TypeEnv.applySubst_bindAll, hself]
    · exact hrange tt (fun v hv => by have := htt v hv; omega)
    · intro b hb v hv
      obtain ⟨b', hb', rfl⟩ := List.mem_map.1 hb
      refine hrange b'.2 (fun v hv => ?_) v hv
      rcases List.mem_append.1 hb' with hb' | hb'
      · have := hΔ₁ b' hb' v hv
        omega
      · have := hΔ₂ b' hb' v hv
        omega
  | .tuple items, env, n, n', penv, tp, henv, h => by
    simp only [Pattern.infer, run_bind_eq_ok, run_pure, Prod.mk.injEq, Except.ok.injEq] at h
    obtain ⟨⟨env₁, ts⟩, n₁, h₁, ⟨rfl, rfl⟩, rfl⟩ := h
    obtain ⟨Δ, hpats, rfl, hn, hts, hΔ⟩ := Pattern.inferList_spec items henv h₁
    exact ⟨Δ, .tuple hpats, rfl, hn, by simpa using hts, hΔ⟩
  | .ctor x arg, env, n, n', penv, tp, _, h => by
    simp only [Pattern.infer] at h
    exact absurd h run_throw_ne_ok

/-- The list form of `Pattern.infer_spec`. -/
theorem Pattern.inferList_spec : ∀ (ps : List Pattern) {env : TypeEnv} {n n' : Nat}
    {penv : TypeEnv} {ts : List Ty}, env.VarsBelow n →
    (Pattern.inferList env ps).run n = (.ok (penv, ts), n') → PatternsResult ps env n n' penv ts
  | [], env, n, n', penv, ts, _, h => by
    simp only [Pattern.inferList, run_pure, Prod.mk.injEq, Except.ok.injEq] at h
    obtain ⟨⟨rfl, rfl⟩, rfl⟩ := h
    exact ⟨[], .nil, rfl, Nat.le_refl _, by simp [Ty.varsList], by simp⟩
  | p :: ps, env, n, n', penv, ts, henv, h => by
    simp only [Pattern.inferList, run_bind_eq_ok, run_pure, Prod.mk.injEq, Except.ok.injEq] at h
    obtain ⟨⟨env₁, t⟩, n₁, h₁, ⟨env₂, ts'⟩, n₂, h₂, ⟨rfl, rfl⟩, rfl⟩ := h
    obtain ⟨Δ₁, hpat, rfl, hn₁, ht, hΔ₁⟩ := Pattern.infer_spec p henv h₁
    obtain ⟨Δ₂, hpats, rfl, hn₂, hts, hΔ₂⟩ :=
      Pattern.inferList_spec ps (henv.bindAll hn₁ (fun b hb v hv => (hΔ₁ b hb v hv).2)) h₂
    refine ⟨Δ₁ ++ Δ₂, .cons hpat hpats, (TypeEnv.bindAll_append _ _).symm, by omega, ?_, ?_⟩
    · intro v hv
      rcases List.mem_append.1 (by simpa using hv) with hv | hv
      · have := ht v hv
        omega
      · have := hts v hv
        omega
    · intro b hb v hv
      rcases List.mem_append.1 hb with hb | hb
      · have := hΔ₁ b hb v hv
        omega
      · have := hΔ₂ b hb v hv
        omega

end

end HindleyMilner
