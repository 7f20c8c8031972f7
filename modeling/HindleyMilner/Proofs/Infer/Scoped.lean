import HindleyMilner.Proofs.Infer.Pattern
import HindleyMilner.Proofs.Subst.Merge
/-!
# What a run of inference draws and binds

A run of inference in an environment whose counter is fresh leaves in its results only variables
*scoped* to the run: free in the environment, or drawn by the run. Its substitution is resolved and
sorted, mentions only scoped variables, and leaves the inferred type as it is (`InferScoped`,
`Expr.infer_scoped`). The same holds of the arms of a `match` and of the components of a tuple,
which extend a substitution built before them (`Expr.inferArms_scoped`,
`Expr.inferItems_scoped`).

This is what rules out capture: every environment inference hands to a sub-run keeps the counter
fresh (`TypeEnv.Fresh`), and a scoped substitution mentions no quantified variable of it.
-/

namespace HindleyMilner

/-- A substitution built by inference in `env` from counter `n` to `m`: resolved, mentioning
only variables scoped to the run, and sorted. -/
structure SubstScoped (env : TypeEnv) (n m : Nat) (s : Subst) : Prop where
  resolved : s.Resolved
  mentions : ∀ w, s.Mentions w → env.Scoped n m w
  sorted : SortedMap.Sorted s

/-- What a run of inference in `env` from `n` to `m` gives: the counter does not go back, the
substitution is scoped, it leaves the type as it is, and the type's variables are scoped. -/
structure InferScoped (env : TypeEnv) (n m : Nat) (s : Subst) (t : Ty) : Prop where
  le : n ≤ m
  subst : SubstScoped env n m s
  apply_eq : s.apply t = t
  ty : ∀ w ∈ t.vars, env.Scoped n m w

variable {env env' : TypeEnv} {n m k : Nat} {s o r : Subst} {t a b : Ty}

namespace SubstScoped

theorem empty : SubstScoped env n m .empty :=
  ⟨Subst.resolved_empty, fun w hw => absurd hw (Subst.not_mentions_empty w), Subst.sorted_empty⟩

theorem mono (h : SubstScoped env n m s) (hm : m ≤ k) : SubstScoped env n k s :=
  ⟨h.resolved, fun w hw => (h.mentions w hw).mono hm, h.sorted⟩

theorem compose (h : SubstScoped env n m s) (ho : ∀ w, o.Mentions w → env.Scoped n m w)
    (hr : s.compose o = .ok r) : SubstScoped env n m r := by
  obtain ⟨hres, -, -, hmen⟩ := Subst.compose_spec h.resolved hr
  refine ⟨hres, fun w hw => ?_, Subst.Sorted.compose h.sorted hr⟩
  rcases hmen w hw with hw | hw
  · exact h.mentions w hw
  · exact ho w hw

theorem mergeUnifier (h : SubstScoped env n m s) (ha : ∀ w ∈ a.vars, env.Scoped n m w)
    (hb : ∀ w ∈ b.vars, env.Scoped n m w) (hr : s.mergeUnifier a b = .ok r) :
    SubstScoped env n m r := by
  obtain ⟨hres, -, -, hmen⟩ := Subst.mergeUnifier_spec h.resolved hr
  refine ⟨hres, fun w hw => ?_, Subst.Sorted.mergeUnifier h.sorted hr⟩
  rcases hmen w hw with hw | hw | hw
  · exact h.mentions w hw
  · exact ha w hw
  · exact hb w hw

/-- A type with scoped variables stays scoped under a scoped substitution. -/
theorem apply (h : SubstScoped env n m s) (ht : ∀ w ∈ t.vars, env.Scoped n m w) :
    ∀ w ∈ (s.apply t).vars, env.Scoped n m w :=
  fun _ hw => TypeEnv.Scoped.apply h.mentions ht hw

/-- The environment under a scoped substitution has only scoped free variables. -/
theorem freeVars_applySubst (h : SubstScoped env n m s) :
    ∀ u ∈ (env.applySubst s).freeVars, env.Scoped n m u :=
  fun _ hu => TypeEnv.Scoped.of_applySubst (fun _ hu => Or.inl hu) h.mentions hu

/-- The result of a run: a scoped substitution applied to a scoped type. -/
theorem result (h : SubstScoped env n m s) (hnm : n ≤ m) (ht : ∀ w ∈ t.vars, env.Scoped n m w) :
    InferScoped env n m s (s.apply t) :=
  ⟨hnm, h, h.resolved.apply_apply t, h.apply ht⟩

end SubstScoped

/-- A variable scoped to a sub-run in `env'` from `k` to `m` is scoped to the whole run in `env`
from `n`, when the free variables of `env'` are. -/
theorem TypeEnv.Scoped.lift {w : Nat} (hfree : ∀ u ∈ env'.freeVars, env.Scoped n k u)
    (hnk : n ≤ k) (hkm : k ≤ m) (hw : env'.Scoped k m w) : env.Scoped n m w := by
  rcases hw with hw | hw
  · exact (hfree w hw).mono hkm
  · exact TypeEnv.Scoped.drawn hnk hw

/-- A sub-run in `env'` from `k`: its substitution and type are scoped to the whole run. -/
theorem InferScoped.lift (h : InferScoped env' k m s t)
    (hfree : ∀ u ∈ env'.freeVars, env.Scoped n k u) (hnk : n ≤ k) :
    (∀ w, s.Mentions w → env.Scoped n m w) ∧ ∀ w ∈ t.vars, env.Scoped n m w :=
  ⟨fun w hw => (h.subst.mentions w hw).lift hfree hnk h.le,
    fun w hw => (h.ty w hw).lift hfree hnk h.le⟩

/-- A substitution scoped to a run in `env` keeps the counter fresh for every environment whose
quantified variables are those of `env`. -/
theorem TypeEnv.Fresh.applySubst_scoped (henv : env.Fresh n) (h : env'.Fresh k)
    (hq : ∀ w, env'.Quantifies w → env.Quantifies w) (hnk : n ≤ k) (hkm : k ≤ m)
    (hs : ∀ w, s.Mentions w → env.Scoped n m w) : (env'.applySubst s).Fresh m := by
  refine h.applySubst hkm (fun w hw => ⟨?_, fun hq' => henv.not_quantifies (hs w hw) (hq w hq')⟩)
  rcases hs w hw with hf | ⟨-, hlt⟩
  · exact Nat.lt_of_lt_of_le (henv.freeVars_lt hf) (Nat.le_trans hnk hkm)
  · exact hlt

theorem TypeEnv.Scoped.lt (henv : env.Fresh n) (hnm : n ≤ m) {w : Nat} (hw : env.Scoped n m w) :
    w < m := by
  rcases hw with hf | ⟨-, hlt⟩
  · exact Nat.lt_of_lt_of_le (henv.freeVars_lt hf) hnm
  · exact hlt

/-- The variable drawn at `k` is scoped to a run from `n ≤ k` that draws it. -/
theorem TypeEnv.Scoped.var_drawn (hnk : n ≤ k) :
    ∀ w ∈ (Ty.var k).vars, env.Scoped n (k + 1) w := by
  intro w hw
  simp only [Ty.vars_var, List.mem_singleton] at hw
  subst hw
  exact TypeEnv.Scoped.drawn hnk ⟨Nat.le_refl _, Nat.lt_succ_self _⟩

/-- A substitution scoped to a run in `env` captures nothing in an environment whose quantified
variables are quantified in `env`. -/
theorem TypeEnv.Fresh.noCapture_of_scoped (henv : env.Fresh n)
    (hq : ∀ w, env'.Quantifies w → env.Quantifies w)
    (hs : ∀ w, s.Mentions w → env.Scoped n m w) : env'.NoCapture s :=
  TypeEnv.noCapture_of_not_quantifies (fun w hw hq' => henv.not_quantifies (hs w hw) (hq w hq'))

/-- The environment a component is typed in, after a scoped run from `n₀` to `n`, keeps the
counter fresh and has only scoped free variables. -/
theorem componentEnv_scoped (order : ComponentOrder) {n₀ : Nat} (henv : env.Fresh n₀)
    (hn : n₀ ≤ n) (hs : SubstScoped env n₀ n s) :
    (componentEnv order env s).Fresh n ∧ ∀ u ∈ (componentEnv order env s).freeVars,
      env.Scoped n₀ n u := by
  cases order with
  | sequential => exact ⟨henv.applySubst_of_scoped hn hs.mentions, hs.freeVars_applySubst⟩
  | independent => exact ⟨henv.mono hn, fun _ hu => Or.inl hu⟩

/-- The environment a component is typed in is read under `R` as `env` is, when `R` absorbs the
substitution before it. -/
theorem componentEnv_read (order : ComponentOrder) {n₀ : Nat} {R : Nat → Ty} {Γ' : TypeEnv}
    (henv : env.Fresh n₀) (hs : SubstScoped env n₀ n s) (hS : AbsorbsSubst R s)
    (hΓ : EnvRead R env Γ') : EnvRead R (componentEnv order env s) Γ' := by
  cases order with
  | sequential => exact hΓ.applySubst hS (henv.noCapture hs.mentions)
  | independent => exact hΓ

/-- One component of a tuple or of `::`: its substitution merged into the one before it. -/
theorem inferComponent_scoped {order : ComponentOrder} {e : Expr} {n₀ : Nat}
    (ih : ∀ {env' : TypeEnv} {m : Nat} {s : Subst} {t : Ty}, env'.Fresh n →
      (Expr.infer order env' e).run n = (.ok (s, t), m) → InferScoped env' n m s t)
    (henv : env.Fresh n₀) (hn : n₀ ≤ n) (hs : SubstScoped env n₀ n s)
    (h : (inferComponent order env s (Expr.infer order · e)).run n = (.ok (r, t), m)) :
    n ≤ m ∧ SubstScoped env n₀ m r ∧ ∀ w ∈ t.vars, env.Scoped n₀ m w := by
  obtain ⟨s', hrun, hr⟩ := inferComponent_run_iff.1 h
  obtain ⟨hfresh, hfree⟩ := componentEnv_scoped order henv hn hs
  have hsub := ih hfresh hrun
  obtain ⟨hmen, hty⟩ := hsub.lift hfree hn
  exact ⟨hsub.le, (hs.mono hsub.le).compose hmen hr, hty⟩

/-- The binding of a `let`: its substitution is scoped, and the environment it gives to the body
keeps the counter fresh, with scoped free variables. -/
theorem inferBinding_scoped {order : ComponentOrder} {kind : BindingKind} {x : String}
    {value : Expr} {env₁ : TypeEnv}
    (ih : ∀ {env' : TypeEnv} {n m : Nat} {s : Subst} {t : Ty}, env'.Fresh n →
      (Expr.infer order env' value).run n = (.ok (s, t), m) → InferScoped env' n m s t)
    (henv : env.Fresh n)
    (h : (inferBinding env kind x (Expr.infer order · value)).run n = (.ok (s, env₁), m)) :
    n ≤ m ∧ SubstScoped env n m s ∧ env₁.Fresh m ∧ ∀ u ∈ env₁.freeVars, env.Scoped n m u := by
  cases kind with
  | plain =>
    obtain ⟨t, hrun, rfl⟩ := inferBinding_plain_run_iff.1 h
    have hsub := ih henv hrun
    have hfree := hsub.subst.freeVars_applySubst
    refine ⟨hsub.le, hsub.subst, ?_, fun u hu => ?_⟩
    · exact (henv.applySubst_of_scoped hsub.le
        hsub.subst.mentions).extend_generalize (fun v hv => (hsub.ty v hv).lt henv hsub.le)
    · rcases TypeEnv.mem_freeVars_extend hu with ⟨hut, huq⟩ | hu
      · exact hfree u (TypeEnv.mem_freeVars_of_generalize hut huq)
      · exact hfree u hu
  | recursive =>
    obtain ⟨s₁, t, s₂, hrun, hu, hc, rfl⟩ := inferBinding_recursive_run_iff.1 h
    -- the value is typed with the name bound to the placeholder `n`
    have hp : ∀ u ∈ (Ty.var n).vars, env.Scoped n (n + 1) u :=
      TypeEnv.Scoped.var_drawn (Nat.le_refl n)
    have henvp := henv.extend_placeholder x
    have hfreep : ∀ u ∈ (env.extend x (.mono (.var n))).freeVars, env.Scoped n (n + 1) u := by
      intro u hu
      rcases TypeEnv.mem_freeVars_extend hu with ⟨hu, -⟩ | hu
      · exact hp u hu
      · exact Or.inl hu
    have hsub := ih henvp hrun
    obtain ⟨hmen₁, hty₁⟩ := hsub.lift hfreep (Nat.le_succ n)
    have hs₁ : SubstScoped env n m s₁ := ⟨hsub.subst.resolved, hmen₁, hsub.subst.sorted⟩
    -- the unifier of the placeholder and the value's type mentions only their variables
    have hs : SubstScoped env n m s := hs₁.compose (fun w hw => by
      rcases mentions_unify hu hw with hw | hw
      · exact hs₁.apply (fun u hu => (hp u hu).mono hsub.le) w hw
      · exact hty₁ w hw) hc
    have hfree₂ : ∀ u ∈ ((env.extend x (.mono (.var n))).applySubst s).freeVars,
        env.Scoped n m u :=
      fun u hu => TypeEnv.Scoped.of_applySubst (fun u hu => (hfreep u hu).mono hsub.le)
        hs.mentions hu
    have henv₂ : ((env.extend x (.mono (.var n))).applySubst s).Fresh m :=
      henv.applySubst_scoped henvp (fun w hw => by
        rcases TypeEnv.quantifies_extend hw with hw | hw
        · simp at hw
        · exact hw) (Nat.le_succ n) hsub.le hs.mentions
    -- the name is bound once: rebinding it is binding it in the environment without it
    rw [TypeEnv.generalizeRec, ← TypeEnv.extend_remove henv₂.sorted]
    refine ⟨Nat.le_trans (Nat.le_succ n) hsub.le, hs, ?_, fun u hu => ?_⟩
    · exact henv₂.remove.extend_generalize (fun v hv => (hs.apply hty₁ v hv).lt henv
        (Nat.le_trans (Nat.le_succ n) hsub.le))
    · rcases TypeEnv.mem_freeVars_extend hu with ⟨hut, huq⟩ | hu
      · exact hfree₂ u (TypeEnv.mem_freeVars_remove (TypeEnv.mem_freeVars_of_generalize hut huq))
      · exact hfree₂ u (TypeEnv.mem_freeVars_remove hu)

/-- The pattern of one arm of a `match`, typed after a scoped run from `n₀` to `n` in `env`
under `s₀`, and its type unified with the scrutinee's. The body's environment keeps the counter
fresh and has scoped free variables, and the unifier captures nothing in the pattern's
environment. -/
theorem inferArmPattern_scoped {p : Pattern} {ts tp : Ty} {penv : TypeEnv} {s₀ s₁ : Subst}
    {n₀ n₁ : Nat} (henv : env.Fresh n₀) (hn : n₀ ≤ n) (hs₀ : SubstScoped env n₀ n s₀)
    (hts : ∀ w ∈ ts.vars, env.Scoped n₀ n w)
    (h₁ : (p.infer (env.applySubst s₀)).run n = (.ok (penv, tp), n₁))
    (hm₁ : s₀.mergeUnifier (s₀.apply ts) (s₀.apply tp) = .ok s₁) :
    ∃ Δ, PatType p tp Δ ∧ penv = (env.applySubst s₀).bindAll Δ ∧ n ≤ n₁ ∧
      SubstScoped env n₀ n₁ s₁ ∧ penv.NoCapture s₁ ∧ (penv.applySubst s₁).Fresh n₁ ∧
      ∀ u ∈ (penv.applySubst s₁).freeVars, env.Scoped n₀ n₁ u := by
  have henv₀ : (env.applySubst s₀).Fresh n := henv.applySubst_of_scoped hn hs₀.mentions
  obtain ⟨Δ, hpat, rfl, hn₁, htp, hΔ⟩ := Pattern.infer_spec p henv₀.vars_lt h₁
  -- the pattern's type is drawn, and unified with the scrutinee's
  have hs₀' := hs₀.mono hn₁
  have hs₁ := hs₀'.mergeUnifier (hs₀'.apply (fun w hw => (hts w hw).mono hn₁))
    (hs₀'.apply (fun w hw => TypeEnv.Scoped.drawn hn (htp w hw))) hm₁
  have hfreeP : ∀ u ∈ ((env.applySubst s₀).bindAll Δ).freeVars, env.Scoped n₀ n₁ u := by
    intro u hu
    rcases TypeEnv.mem_freeVars_bindAll hu with hu | ⟨b, hb, hu⟩
    · exact (hs₀.freeVars_applySubst u hu).mono hn₁
    · exact TypeEnv.Scoped.drawn hn (hΔ b hb u hu)
  -- the pattern's environment quantifies only what `env` does
  have hq : ∀ w, ((env.applySubst s₀).bindAll Δ).Quantifies w → env.Quantifies w :=
    fun w hw => TypeEnv.quantifies_applySubst (TypeEnv.quantifies_bindAll hw)
  exact ⟨Δ, hpat, rfl, hn₁, hs₁, henv.noCapture_of_scoped hq hs₁.mentions,
    henv.applySubst_scoped (henv₀.bindAll hn₁ hΔ) hq (Nat.le_trans hn hn₁) (Nat.le_refl _)
      hs₁.mentions, fun u hu => TypeEnv.Scoped.of_applySubst hfreeP hs₁.mentions hu⟩

/-- One arm of a `match`, typed after a scoped run from `n₀` to `n`: the pattern as in
`inferArmPattern_scoped`, then the body typed in the pattern's environment under the unifier,
and its type unified with the result type. The substitution after the arm is scoped. -/
theorem inferArm_scoped {p : Pattern} {ts r tp tb : Ty} {penv : TypeEnv}
    {s₀ s₁ s₂ s₃ s₄ : Subst} {n₀ n₁ n₂ : Nat}
    (henv : env.Fresh n₀) (hn : n₀ ≤ n) (hs₀ : SubstScoped env n₀ n s₀)
    (hts : ∀ w ∈ ts.vars, env.Scoped n₀ n w) (hr : ∀ w ∈ r.vars, env.Scoped n₀ n w)
    (h₁ : (p.infer (env.applySubst s₀)).run n = (.ok (penv, tp), n₁))
    (hm₁ : s₀.mergeUnifier (s₀.apply ts) (s₀.apply tp) = .ok s₁)
    (hbody : (penv.applySubst s₁).Fresh n₁ → InferScoped (penv.applySubst s₁) n₁ n₂ s₂ tb)
    (hc : s₁.compose s₂ = .ok s₃) (hm₂ : s₃.mergeUnifier (s₃.apply r) (s₃.apply tb) = .ok s₄) :
    ∃ Δ, PatType p tp Δ ∧ penv = (env.applySubst s₀).bindAll Δ ∧ penv.NoCapture s₁ ∧
      (penv.applySubst s₁).Fresh n₁ ∧ n ≤ n₂ ∧ SubstScoped env n₀ n₂ s₄ := by
  obtain ⟨Δ, hpat, hpenv, hn₁, hs₁, hnc, henvB, hfreeB⟩ :=
    inferArmPattern_scoped henv hn hs₀ hts h₁ hm₁
  have hb := hbody henvB
  obtain ⟨hmen₂, htb⟩ := hb.lift hfreeB (Nat.le_trans hn hn₁)
  have hs₃ := (hs₁.mono hb.le).compose hmen₂ hc
  have hs₄ := hs₃.mergeUnifier (hs₃.apply (fun w hw => (hr w hw).mono
    (Nat.le_trans hn₁ hb.le))) (hs₃.apply htb) hm₂
  exact ⟨Δ, hpat, hpenv, hnc, henvB, Nat.le_trans hn₁ hb.le, hs₄⟩

mutual

/-- A run of inference from a fresh counter is scoped. -/
theorem Expr.infer_scoped : ∀ (e : Expr) {order : ComponentOrder} {env : TypeEnv} {n m : Nat}
    {s : Subst} {t : Ty}, env.Fresh n →
    (Expr.infer order env e).run n = (.ok (s, t), m) → InferScoped env n m s t
  | .lit c, order, env, n, m, s, t, _, h => by
    obtain ⟨hc, rfl⟩ := Expr.infer_lit_run_iff.1 h
    obtain ⟨-, hk, hvars⟩ := Const.infer_spec hc
    exact ⟨hk, SubstScoped.empty, Subst.apply_empty t, fun w hw => Or.inr (hvars w hw)⟩
  | .var x, order, env, n, m, s, t, _, h => by
    obtain ⟨sc, hsc, hi, rfl⟩ := Expr.infer_var_run_iff.1 h
    obtain ⟨-, hk, hvars⟩ := Scheme.instantiate_spec hi
    refine ⟨hk, SubstScoped.empty, Subst.apply_empty t, fun w hw => ?_⟩
    rcases hvars w hw with ⟨hwt, hwq⟩ | hw
    · exact Or.inl (TypeEnv.mem_freeVars_of_mem (SortedMap.mem_entries_of_find? hsc) hwt hwq)
    · exact Or.inr hw
  | .binop op l r, order, env, n, m, s, t, henv, h => by
    obtain ⟨s₁, tl, n₁, s₂, tr, n₂, el, er, res, s₃, s₄, h₁, h₂, hsig, hc, hm₁, hm₂, rfl⟩ :=
      Expr.infer_binop_run_iff.1 h
    have hl := Expr.infer_scoped l henv h₁
    have hr := Expr.infer_scoped r
      (henv.applySubst_of_scoped hl.le hl.subst.mentions) h₂
    obtain ⟨hmen₂, htr⟩ := hr.lift hl.subst.freeVars_applySubst hl.le
    obtain ⟨-, hn₃, hsig⟩ := BinOp.signature_spec hsig
    have hn₂ := Nat.le_trans hl.le hr.le
    -- the operator's types are drawn after both operands
    have hop : ∀ w ∈ el.vars ++ er.vars ++ res.vars, env.Scoped n m w :=
      fun w hw => TypeEnv.Scoped.drawn hn₂ (hsig w hw)
    have hs₃ := ((hl.subst.mono (Nat.le_trans hr.le hn₃)).compose
      (fun w hw => (hmen₂ w hw).mono hn₃) hc)
    have hs₄ := hs₃.mergeUnifier (hs₃.apply (fun w hw => (hl.ty w hw).mono
      (Nat.le_trans hr.le hn₃))) (hs₃.apply (fun w hw => hop w (by simp [hw]))) hm₁
    have hs₅ := hs₄.mergeUnifier (hs₄.apply (fun w hw => (htr w hw).mono hn₃))
      (hs₄.apply (fun w hw => hop w (by simp [hw]))) hm₂
    exact hs₅.result (Nat.le_trans hn₂ hn₃) (fun w hw => hop w (by simp [hw]))
  | .ite c t e, order, env, n, m, s, ty, henv, h => by
    obtain ⟨s₁, tc, n₁, s₂, tt, n₂, s₃, te, s₄, s₅, s₆, h₁, h₂, h₃, hc₁, hc₂, hm₁, hm₂, rfl⟩ :=
      Expr.infer_ite_run_iff.1 h
    have hc := Expr.infer_scoped c henv h₁
    have henv₁ := henv.applySubst_of_scoped hc.le
      hc.subst.mentions
    have hfree₁ := hc.subst.freeVars_applySubst
    have ht := Expr.infer_scoped t henv₁ h₂
    obtain ⟨hmen₂, htt⟩ := ht.lift hfree₁ hc.le
    have hfree₂ : ∀ u ∈ ((env.applySubst s₁).applySubst s₂).freeVars, env.Scoped n n₂ u :=
      fun u hu => TypeEnv.Scoped.of_applySubst (fun u hu => (hfree₁ u hu).mono ht.le) hmen₂ hu
    have he := Expr.infer_scoped e (henv₁.applySubst_of_scoped ht.le ht.subst.mentions) h₃
    have hn₂ := Nat.le_trans hc.le ht.le
    obtain ⟨hmen₃, hte⟩ := he.lift hfree₂ hn₂
    have hs₄ := (hc.subst.mono (Nat.le_trans ht.le he.le)).compose
      (fun w hw => (hmen₂ w hw).mono he.le) hc₁
    have hs₅ := hs₄.compose hmen₃ hc₂
    have hs₆ := hs₅.mergeUnifier (hs₅.apply (fun w hw => (hc.ty w hw).mono
      (Nat.le_trans ht.le he.le))) (by simp) hm₁
    have hs₇ := hs₆.mergeUnifier (hs₆.apply (fun w hw => (htt w hw).mono he.le))
      (hs₆.apply hte) hm₂
    exact hs₇.result (Nat.le_trans hn₂ he.le) (fun w hw => (htt w hw).mono he.le)
  | .matchOn e [], order, env, n, m, s, t, _, h => by
    rw [Expr.infer_matchOn_nil_run] at h
    cases h
  | .matchOn e (arm :: arms), order, env, n, m, s, t, henv, h => by
    obtain ⟨s₁, ts, n₁, h₁, harms, rfl⟩ := Expr.infer_matchOn_run_iff.1 h
    have hs := Expr.infer_scoped e henv h₁
    -- the result type is the variable drawn after the scrutinee
    have hr : ∀ w ∈ (Ty.var n₁).vars, env.Scoped n (n₁ + 1) w := TypeEnv.Scoped.var_drawn hs.le
    obtain ⟨hle, hs₂⟩ := Expr.inferArms_scoped (arm :: arms) henv
      (Nat.le_trans hs.le (Nat.le_succ n₁)) (hs.subst.mono (Nat.le_succ n₁))
      (fun w hw => (hs.ty w hw).mono (Nat.le_succ n₁)) hr harms
    exact hs₂.result (Nat.le_trans (Nat.le_trans hs.le (Nat.le_succ n₁)) hle)
      (fun w hw => (hr w hw).mono hle)
  | .letIn kind x e₁ e₂, order, env, n, m, s, t, henv, h => by
    obtain ⟨s₁, env₁, n₁, s₂, tb, h₁, h₂, hc, rfl⟩ := Expr.infer_letIn_run_iff.1 h
    obtain ⟨hn₁, hs₁, henv₁, hfree₁⟩ :=
      inferBinding_scoped (fun h hr => Expr.infer_scoped e₁ h hr) henv h₁
    have hb := Expr.infer_scoped e₂ henv₁ h₂
    obtain ⟨hmen₂, htb⟩ := hb.lift hfree₁ hn₁
    exact ((hs₁.mono hb.le).compose hmen₂ hc).result (Nat.le_trans hn₁ hb.le) htb
  | .lam p body, order, env, n, m, s, t, henv, h => by
    obtain ⟨penv, tp, n₁, tb, h₁, h₂, rfl⟩ := Expr.infer_lam_run_iff.1 h
    obtain ⟨Δ, -, rfl, hn₁, htp, hΔ⟩ := Pattern.infer_spec p henv.vars_lt h₁
    -- the body sees the pattern's bindings, all of drawn types
    have hfree : ∀ u ∈ (env.bindAll Δ).freeVars, env.Scoped n n₁ u := by
      intro u hu
      rcases TypeEnv.mem_freeVars_bindAll hu with hu | ⟨b, hb, hu⟩
      · exact Or.inl hu
      · exact Or.inr (hΔ b hb u hu)
    have hb := Expr.infer_scoped body (henv.bindAll hn₁ hΔ) h₂
    obtain ⟨hmen, htb⟩ := hb.lift hfree hn₁
    refine SubstScoped.result ⟨hb.subst.resolved, hmen, hb.subst.sorted⟩ (Nat.le_trans hn₁ hb.le)
      (fun w hw => ?_)
    rcases List.mem_append.1 (Ty.vars_arrow tp tb ▸ hw) with hw | hw
    · exact TypeEnv.Scoped.drawn (Nat.le_refl n) ⟨(htp w hw).1,
        Nat.lt_of_lt_of_le (htp w hw).2 hb.le⟩
    · exact htb w hw
  | .tuple items, order, env, n, m, s, t, henv, h => by
    obtain ⟨ts, h₁, rfl⟩ := Expr.infer_tuple_run_iff.1 h
    obtain ⟨hle, hs₁, hts⟩ :=
      Expr.inferItems_scoped items henv (Nat.le_refl n) SubstScoped.empty h₁
    rw [← Subst.apply_tuple]
    refine hs₁.result hle (fun w hw => ?_)
    obtain ⟨t, ht, hw⟩ := Ty.mem_varsList.1 (Ty.vars_tuple ts ▸ hw)
    exact hts t ht w hw
  | .cons hd tl, order, env, n, m, s, t, henv, h => by
    obtain ⟨s₁, th, n₁, s₂, tt, h₁, h₂, hm, rfl⟩ := Expr.infer_cons_run_iff.1 h
    obtain ⟨hn₁, hs₁, hth⟩ := inferComponent_scoped (fun h hr => Expr.infer_scoped hd h hr)
      henv (Nat.le_refl n) SubstScoped.empty h₁
    obtain ⟨hn₂, hs₂, htt⟩ := inferComponent_scoped (fun h hr => Expr.infer_scoped tl h hr)
      henv hn₁ hs₁ h₂
    have hs₃ := hs₂.mergeUnifier (a := .list (s₂.apply th))
      (by simpa using hs₂.apply (fun w hw => (hth w hw).mono hn₂)) (hs₂.apply htt) hm
    exact hs₃.result (Nat.le_trans hn₁ hn₂) (hs₂.apply htt)
  | .app f a, order, env, n, m, s, t, henv, h => by
    obtain ⟨s₁, tf, n₁, s₂, ta, n₂, s₃, h₁, h₂, hc, hm, rfl, rfl⟩ := Expr.infer_app_run_iff.1 h
    have hf := Expr.infer_scoped f henv h₁
    have ha := Expr.infer_scoped a
      (henv.applySubst_of_scoped hf.le hf.subst.mentions) h₂
    obtain ⟨hmen₂, hta⟩ := ha.lift hf.subst.freeVars_applySubst hf.le
    have hn₂ := Nat.le_trans hf.le ha.le
    -- the result type is the variable drawn after the argument
    have hr : ∀ w ∈ (Ty.var n₂).vars, env.Scoped n (n₂ + 1) w := TypeEnv.Scoped.var_drawn hn₂
    have hs₃ := (hf.subst.mono (Nat.le_trans ha.le (Nat.le_succ n₂))).compose
      (fun w hw => (hmen₂ w hw).mono (Nat.le_succ n₂)) hc
    have hs₄ := hs₃.mergeUnifier (hs₃.apply (fun w hw => (hf.ty w hw).mono
      (Nat.le_trans ha.le (Nat.le_succ n₂)))) (fun w hw => by
        simp only [Ty.vars_arrow, List.mem_append] at hw
        rcases hw with hw | hw
        · exact hs₃.apply (fun w hw => (hta w hw).mono (Nat.le_succ n₂)) w hw
        · exact hr w hw) hm
    exact hs₄.result (Nat.le_trans hn₂ (Nat.le_succ n₂)) hr
  | .ctor x _, order, env, n, m, s, t, _, h => by
    rw [Expr.infer_ctor_run] at h
    cases h
  | .variant tag _, order, env, n, m, s, t, _, h => by
    rw [Expr.infer_variant_run] at h
    cases h

/-- The arms of a `match`, typed after a scoped run from `n₀` to `n`, extend it to a scoped
substitution. -/
theorem Expr.inferArms_scoped : ∀ (arms : List (Pattern × Expr)) {order : ComponentOrder}
    {env : TypeEnv} {ts r : Ty} {s₀ : Subst} {n₀ n m : Nat} {s : Subst},
    env.Fresh n₀ → n₀ ≤ n → SubstScoped env n₀ n s₀ → (∀ w ∈ ts.vars, env.Scoped n₀ n w) →
    (∀ w ∈ r.vars, env.Scoped n₀ n w) →
    (Expr.inferArms order env ts r s₀ arms).run n = (.ok s, m) →
    n ≤ m ∧ SubstScoped env n₀ m s
  | [], order, env, ts, r, s₀, n₀, n, m, s, _, _, hs₀, _, _, h => by
    obtain ⟨rfl, rfl⟩ := Expr.inferArms_nil_run_iff.1 h
    exact ⟨Nat.le_refl _, hs₀⟩
  | (p, body) :: rest, order, env, ts, r, s₀, n₀, n, m, s, henv, hn, hs₀, hts, hr, h => by
    obtain ⟨penv, tp, n₁, s₁, s₂, tb, n₂, s₃, s₄, h₁, hm₁, h₂, hc, hm₂, hrest⟩ :=
      Expr.inferArms_cons_run_iff.1 h
    obtain ⟨-, -, -, -, -, hn₂, hs₄⟩ := inferArm_scoped henv hn hs₀ hts hr h₁ hm₁
      (fun hf => Expr.infer_scoped body hf h₂) hc hm₂
    obtain ⟨hle, hs⟩ := Expr.inferArms_scoped rest henv (Nat.le_trans hn hn₂) hs₄
      (fun w hw => (hts w hw).mono hn₂) (fun w hw => (hr w hw).mono hn₂) hrest
    exact ⟨Nat.le_trans hn₂ hle, hs⟩

/-- The components of a tuple, typed after a scoped run from `n₀` to `n`, extend it to a scoped
substitution and have scoped types. -/
theorem Expr.inferItems_scoped : ∀ (items : List Expr) {order : ComponentOrder} {env : TypeEnv}
    {s₀ : Subst} {n₀ n m : Nat} {s : Subst} {ts : List Ty},
    env.Fresh n₀ → n₀ ≤ n → SubstScoped env n₀ n s₀ →
    (Expr.inferItems order env s₀ items).run n = (.ok (s, ts), m) →
    n ≤ m ∧ SubstScoped env n₀ m s ∧ ∀ t ∈ ts, ∀ w ∈ t.vars, env.Scoped n₀ m w
  | [], order, env, s₀, n₀, n, m, s, ts, _, _, hs₀, h => by
    obtain ⟨rfl, rfl, rfl⟩ := Expr.inferItems_nil_run_iff.1 h
    exact ⟨Nat.le_refl _, hs₀, by simp⟩
  | e :: es, order, env, s₀, n₀, n, m, s, ts, henv, hn, hs₀, h => by
    obtain ⟨s₁, t, n₁, ts', h₁, h₂, rfl⟩ := Expr.inferItems_cons_run_iff.1 h
    obtain ⟨hn₁, hs₁, ht⟩ :=
      inferComponent_scoped (fun h hr => Expr.infer_scoped e h hr) henv hn hs₀ h₁
    obtain ⟨hn₂, hs₂, hts⟩ := Expr.inferItems_scoped es henv (Nat.le_trans hn hn₁) hs₁ h₂
    refine ⟨Nat.le_trans hn₁ hn₂, hs₂, fun t' ht' w hw => ?_⟩
    rcases List.mem_cons.1 ht' with rfl | ht'
    · exact (ht w hw).mono hn₂
    · exact hts t' ht' w hw

end

end HindleyMilner
