import HindleyMilner.Proofs.Infer.Pattern
import HindleyMilner.Proofs.Infer.Scoped
import HindleyMilner.Proofs.Unify.Complete
/-!
# Most general steps of inference

Completeness of inference is proved against a fixed reading: the typing rules type an expression
in `Γ'`, a reading of the environment under some `R`, and inference from a counter `n` fresh for
the environment has to succeed with a result that `R`, extended past `n`, turns into that typing.
`AgreeBelow n R R'` says that `R'` is such an extension: it may choose the image of every
variable drawn from `n` on, and keeps `R` below.

This module proves it for the steps that draw variables without typing a subexpression. An
instance of a scheme (`Scheme.instantiate_complete`) draws `n + i` for the `i`-th quantified
variable, which `R'` sends where the rules' instance sends its reading. A literal, an operator's
signature and a pattern (`Pattern.infer_most_general`) likewise. A pattern's bindings are fixed by
its type, so they are read as the bindings the rules give it, and an arm's body is typed in a
reading again (`Pattern.infer_complete`).
-/

namespace HindleyMilner

open InferM

/-- `R'` agrees with `R` below `k`: it may differ only on variables drawn from `k` on. -/
def AgreeBelow (k : Nat) (R R' : Nat → Ty) : Prop := ∀ v < k, R' v = R v

namespace AgreeBelow

variable {k k' : Nat} {R R₁ R₂ : Nat → Ty}

theorem refl (k : Nat) (R : Nat → Ty) : AgreeBelow k R R := fun _ _ => rfl

theorem trans (h₁ : AgreeBelow k R R₁) (h₂ : AgreeBelow k' R₁ R₂) (hk : k ≤ k') :
    AgreeBelow k R R₂ := fun v hv => (h₂ v (Nat.lt_of_lt_of_le hv hk)).trans (h₁ v hv)

/-- Choosing the image of the variable drawn next. -/
theorem update (k : Nat) (τ : Ty) : AgreeBelow k R (fun v => if v = k then τ else R v) :=
  fun _ hv => if_neg (Nat.ne_of_lt hv)

/-- A type whose variables are below `k` is read alike. -/
theorem substWith (h : AgreeBelow k R R₁) {t : Ty} (ht : ∀ v ∈ t.vars, v < k) :
    t.substWith R₁ = t.substWith R :=
  Ty.substWith_congr t (fun v hv => h v (ht v hv))

/-- A substitution that mentions only variables below `k` is absorbed alike. -/
theorem absorbs (h : AgreeBelow k R R₁) {s : Subst} (hS : AbsorbsSubst R s)
    (hs : ∀ w, s.Mentions w → w < k) : AbsorbsSubst R₁ s := by
  intro v
  cases hv : s.find? v with
  | none => rw [Subst.image_of_find?_eq_none hv]; rfl
  | some t =>
    have habs := hS v
    rw [Subst.image_of_find? hv] at habs ⊢
    rw [h.substWith (fun w hw => hs w (Subst.mentions_of_find? hv (Or.inr hw))), habs,
      h v (hs v (Subst.mentions_of_find? hv (Or.inl rfl)))]

/-- An environment that `k` is fresh for is read alike. -/
theorem envRead (h : AgreeBelow k R R₁) {env Γ' : TypeEnv} (henv : env.Fresh k)
    (hΓ : EnvRead R env Γ') : EnvRead R₁ env Γ' :=
  hΓ.congr (fun w hw => h w (henv.freeVars_lt hw))

end AgreeBelow

variable {env : TypeEnv} {n m : Nat} {s : Subst} {t : Ty}

/-- A scoped substitution mentions only variables drawn before its run ended. -/
theorem SubstScoped.mentions_lt (hs : SubstScoped env n m s) (henv : env.Fresh n) (hnm : n ≤ m) :
    ∀ w, s.Mentions w → w < m :=
  fun w hw => TypeEnv.Scoped.lt henv hnm (hs.mentions w hw)

/-- The type of a scoped run has only variables drawn before the run ended. -/
theorem InferScoped.ty_lt (h : InferScoped env n m s t) (henv : env.Fresh n) :
    ∀ w ∈ t.vars, w < m :=
  fun w hw => TypeEnv.Scoped.lt henv h.le (h.ty w hw)

/-- A literal's type is the most general one: every type the rules give it is an instance. -/
theorem Const.infer_complete {c : Const} {τ : Ty} (h : ConstType c τ) (n : Nat) (R : Nat → Ty) :
    ∃ t n', c.infer.run n = (.ok t, n') ∧ ∃ R', AgreeBelow n R R' ∧ t.substWith R' = τ := by
  cases h with
  | int v => exact ⟨_, _, rfl, R, AgreeBelow.refl n R, rfl⟩
  | bool b => exact ⟨_, _, rfl, R, AgreeBelow.refl n R, rfl⟩
  | str s => exact ⟨_, _, rfl, R, AgreeBelow.refl n R, rfl⟩
  | unit => exact ⟨_, _, rfl, R, AgreeBelow.refl n R, rfl⟩
  | nil t => exact ⟨_, _, rfl, _, AgreeBelow.update n t, by simp [Ty.substWith]⟩

/-- An operator's signature is the most general one. -/
theorem BinOp.signature_complete {op : BinOp} {a b c : Ty} (h : OpType op a b c) (n : Nat)
    (R : Nat → Ty) :
    ∃ el er res n', op.signature.run n = (.ok (el, er, res), n') ∧
      ∃ R', AgreeBelow n R R' ∧ el.substWith R' = a ∧ er.substWith R' = b ∧
        res.substWith R' = c := by
  cases h with
  | arithmetic hc =>
    exact ⟨_, _, _, _, by rw [BinOp.signature, hc]; rfl, R, AgreeBelow.refl n R, rfl, rfl, rfl⟩
  | comparison t hc =>
    refine ⟨_, _, _, _, by rw [BinOp.signature, hc]; rfl, _, AgreeBelow.update n a, ?_, ?_, rfl⟩
    all_goals simp [Ty.substWith]
  | boolean hc =>
    exact ⟨_, _, _, _, by rw [BinOp.signature, hc]; rfl, R, AgreeBelow.refl n R, rfl, rfl, rfl⟩

/-- Instantiating a scheme is most general: every instance of a reading of the scheme is one of
the drawn instance, under `R` extended on the drawn variables. -/
theorem Scheme.instantiate_complete {sc sc' : Scheme} {R : Nat → Ty} {τ : Ty}
    (hlt : ∀ v ∈ sc.ty.vars, v ∉ sc.vars → v < n) (hread : SchemeRead R sc sc')
    (hi : sc'.Instance τ) :
    ∃ t n', sc.instantiate.run n = (.ok t, n') ∧ ∃ R', AgreeBelow n R R' ∧ t.substWith R' = τ := by
  obtain ⟨ρ, hρ⟩ := hread
  obtain ⟨g, hg, rfl⟩ := hi
  -- the image of a free variable avoids the reading's quantified variables, which `g` moves
  have hfree : ∀ v ∈ sc.ty.vars, v ∉ sc.vars → R v = (R v).substWith g := fun v hv hq =>
    (Ty.substWith_eq_self (fun u hu => hg u (hρ.free_avoid v hv hq u hu))).symm
  rw [hρ.ty_eq, Ty.substWith_substWith]
  unfold Scheme.instantiate
  split
  · -- nothing is quantified: `R` itself
    rename_i hempty
    refine ⟨_, _, rfl, R, AgreeBelow.refl n R, Ty.substWith_congr _ (fun v hv => ?_)⟩
    have hq : v ∉ sc.vars := by simp [List.isEmpty_iff.1 hempty]
    rw [if_neg hq]
    exact hfree v hv hq
  · -- the `i`-th quantified variable is drawn as `n + i`, and goes where `g` sends its reading
    have hkeys : (sc.vars.zipIdx n).map (·.1) = sc.vars := List.zipIdx_map_fst n sc.vars
    refine ⟨_, _, by rw [run_bind_eq_ok]; exact ⟨_, _, run_mapM_draw sc.vars n, rfl⟩,
      fun u => if n ≤ u ∧ u < n + sc.vars.length then g (ρ (sc.vars.getD (u - n) 0)) else R u,
      fun v hv => if_neg (fun h => Nat.not_le.2 hv h.1), ?_⟩
    rw [Ty.rename_eq, Ty.substWith_substWith]
    refine Ty.substWith_congr _ (fun v hv => ?_)
    by_cases hq : v ∈ sc.vars
    · obtain ⟨i, hi⟩ := SortedMap.find?_ofList_isSome (by rwa [hkeys])
      obtain ⟨hni, hin, hvi⟩ := List.mem_zipIdx (SortedMap.mem_of_find?_ofList hi)
      simp only [hi, Option.getD_some, Ty.substWith, if_pos hq, if_pos (And.intro hni hin),
        List.getD_eq_getElem?_getD, List.getElem?_eq_getElem (Nat.sub_lt_left_of_lt_add hni hin),
        Option.getD_some, ← hvi]
    · have hv' : v < n := hlt v hv hq
      rw [SortedMap.find?_ofList_eq_none (by rwa [hkeys])]
      have hnd : ¬(n ≤ v ∧ v < n + sc.vars.length) := fun h => Nat.not_le.2 hv' h.1
      simp only [Option.getD_none, Ty.substWith, if_neg hq, if_neg hnd]
      exact hfree v hv hq

mutual

/-- Typing a pattern is most general among its typings: for every typing by the rules, the run
succeeds and `R`, extended on the drawn variables, sends the inferred type to the rules' type. Of
the environment, only that its variables are below the counter matters. -/
theorem Pattern.infer_most_general : ∀ (p : Pattern) {env : TypeEnv} {n : Nat} {R : Nat → Ty}
    {τ : Ty} {Δ' : List (String × Ty)}, env.VarsBelow n → PatType p τ Δ' →
    ∃ penv tp n', (p.infer env).run n = (.ok (penv, tp), n') ∧
      ∃ R', AgreeBelow n R R' ∧ tp.substWith R' = τ
  | .any, _, n, _, τ, _, _, .any _ =>
    ⟨_, _, _, rfl, _, AgreeBelow.update n τ, by simp [Ty.substWith]⟩
  | .lit c, env, n, R, _, _, _, .lit hc => by
    obtain ⟨t, n', hrun, R', hR', ht⟩ := Const.infer_complete hc n R
    refine ⟨env, t, n', ?_, R', hR', ht⟩
    simp only [Pattern.infer, run_bind_eq_ok, run_pure]
    exact ⟨t, n', hrun, rfl⟩
  | .var x, _, n, _, τ, _, _, .var _ _ =>
    ⟨_, _, _, rfl, _, AgreeBelow.update n τ, by simp [Ty.substWith]⟩
  | .cons hp tp, env, n, R, _, _, henv, .cons hh ht => by
    obtain ⟨env₁, th, n₁, h₁, R₁, hR₁, hth⟩ := Pattern.infer_most_general hp henv hh
    obtain ⟨Δ₁, -, rfl, hn₁, hthv, hΔ₁⟩ := Pattern.infer_spec hp henv h₁
    obtain ⟨env₂, tt, n₂, h₂, R₂, hR₂, htt⟩ := Pattern.infer_most_general tp
      (henv.bindAll hn₁ (fun b hb v hv => (hΔ₁ b hb v hv).2)) ht
    -- `R₂` reads the head's type as `R₁` does, so it unifies the two sides
    have hunif : (Ty.list th).substWith R₂ = tt.substWith R₂ := by
      rw [htt, Ty.substWith, hR₂.substWith (fun v hv => (hthv v hv).2), hth]
    obtain ⟨u, hu, hRu⟩ := unify_complete hunif
    refine ⟨env₂.applySubst u, u.apply tt, n₂, ?_, R₂, hR₁.trans hR₂ hn₁, by rw [hRu.apply, htt]⟩
    simp only [Pattern.infer, run_bind_eq_ok, run_pure, run_ofExcept_eq_ok]
    exact ⟨_, _, h₁, _, _, h₂, _, _, ⟨hu, rfl⟩, rfl⟩
  | .tuple items, _, n, R, _, _, henv, .tuple hps => by
    obtain ⟨penv, tps, n', h, R', hR', hts⟩ := Pattern.inferList_most_general items henv hps
    refine ⟨penv, .tuple tps, n', ?_, R', hR', by simp only [Ty.substWith, hts]⟩
    simp only [Pattern.infer, run_bind_eq_ok, run_pure]
    exact ⟨_, _, h, rfl⟩

/-- The list form of `Pattern.infer_most_general`. -/
theorem Pattern.inferList_most_general : ∀ (ps : List Pattern) {env : TypeEnv} {n : Nat}
    {R : Nat → Ty} {ts : List Ty} {Δ' : List (String × Ty)}, env.VarsBelow n →
    PatTypes ps ts Δ' → ∃ penv tps n',
      (Pattern.inferList env ps).run n = (.ok (penv, tps), n') ∧
      ∃ R', AgreeBelow n R R' ∧ Ty.substWithList R' tps = ts
  | [], _, n, R, _, _, _, .nil => ⟨_, [], n, rfl, R, AgreeBelow.refl n R, rfl⟩
  | p :: ps, _, n, _, _, _, henv, .cons hp hps => by
    obtain ⟨env₁, t, n₁, h₁, R₁, hR₁, ht⟩ := Pattern.infer_most_general p henv hp
    obtain ⟨Δ₁, -, rfl, hn₁, htv, hΔ₁⟩ := Pattern.infer_spec p henv h₁
    obtain ⟨penv, tps, n₂, h₂, R₂, hR₂, hts⟩ := Pattern.inferList_most_general ps
      (henv.bindAll hn₁ (fun b hb v hv => (hΔ₁ b hb v hv).2)) hps
    refine ⟨penv, t :: tps, n₂, ?_, R₂, hR₁.trans hR₂ hn₁, ?_⟩
    · simp only [Pattern.inferList, run_bind_eq_ok, run_pure]
      exact ⟨_, _, h₁, _, _, h₂, rfl⟩
    · rw [Ty.substWithList, hR₂.substWith (fun v hv => (htv v hv).2), ht, hts]

end

/-- Typing a pattern is most general: for every typing of the pattern by the rules, the run
succeeds, `R` extended on the drawn variables sends the inferred type to the rules' type, and it
reads the extended environment as the reading extended by the rules' bindings. -/
theorem Pattern.infer_complete (p : Pattern) {env : TypeEnv} {n : Nat} {R : Nat → Ty}
    {Γ' : TypeEnv} {τ : Ty} {Δ' : List (String × Ty)} (henv : env.Fresh n)
    (hΓ : EnvRead R env Γ') (hpat : PatType p τ Δ') :
    ∃ penv tp n', (p.infer env).run n = (.ok (penv, tp), n') ∧
      ∃ R', AgreeBelow n R R' ∧ tp.substWith R' = τ ∧ EnvRead R' penv (Γ'.bindAll Δ') := by
  obtain ⟨penv, tp, n', h, R', hR', htp⟩ := Pattern.infer_most_general p henv.vars_lt hpat
  obtain ⟨Δ, hpatΔ, rfl, -⟩ := Pattern.infer_spec p henv.vars_lt h
  -- the type fixes the bindings, so the rules' bindings are the inferred ones read through `R'`
  have hΔ' : Δ' = Δ.map fun b => (b.1, b.2.substWith R') := by
    refine PatType.bindings_unique hpat ?_
    rw [← htp]
    exact PatType.substWith R' hpatΔ
  refine ⟨_, tp, n', h, R', hR', htp, ?_⟩
  rw [hΔ']
  exact (hR'.envRead henv hΓ).bindAll Δ

end HindleyMilner
