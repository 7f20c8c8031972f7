import HindleyMilner.Proofs.Infer.Principal
import HindleyMilner.Proofs.Typing.General
/-!
# Completeness of inference

Whatever the typing rules derive in a reading of the environment, inference finds, and finds
most generally (`Expr.infer_principal`): if `Γ'` reads `env` under `S` and `HasType Γ' e τ`,
then inference from a counter fresh for `env` succeeds with some `(s, t)`, in either component
order, and one `R` sends `s` to `S` on the free variables of `env` and `t` to `τ`.

The induction (`Expr.infer_complete`) follows the expression and the typing together. A run from
`n` is matched against a typing at `τ` under `R` by an extension `R'` of `R` past `n` that absorbs
the run's substitution and sends its type to `τ` (`ResultInstance`). Each subexpression's run is
matched first; a later run only extends the function further, which keeps every earlier match
(`ResultInstance.mono`), so by the time two results are composed or unified one function makes
both sides equal and the completeness of unification (`Subst.mergeUnifier_complete`) applies.

At a `let`, the rules may give the name any generalization of a type of the value; inference
gives its most general scheme, which read with its quantified variables renamed apart is at least
as general as the rules' (`EnvRead.generalize_moreGeneral`), so the body stays typable there
(`HasType.of_generalizes`).
-/

namespace HindleyMilner

/-- The typing at `τ` under `R` is an instance of the result `(s, t)` of a run from `n`, by `R'`:
`R'` agrees with `R` below `n`, absorbs `s`, and sends `t` to `τ`. -/
structure ResultInstance (n : Nat) (R : Nat → Ty) (s : Subst) (t τ : Ty) (R' : Nat → Ty) :
    Prop where
  agree : AgreeBelow n R R'
  absorbs : AbsorbsSubst R' s
  ty_eq : t.substWith R' = τ

namespace ResultInstance

variable {env Γ' : TypeEnv} {n m : Nat} {R R₁ R₂ : Nat → Ty} {s : Subst} {t τ : Ty}

/-- Extending the matching function past the end of the run keeps the match. -/
theorem mono (h : ResultInstance n R s t τ R₁) (henv : env.Fresh n)
    (hsc : InferScoped env n m s t) (h₂ : AgreeBelow m R₁ R₂) : ResultInstance n R s t τ R₂ where
  agree := h.agree.trans h₂ hsc.le
  absorbs := h₂.absorbs h.absorbs (hsc.subst.mentions_lt henv hsc.le)
  ty_eq := by rw [h₂.substWith (hsc.ty_lt henv), h.ty_eq]

/-- The environment after the run is read by the matching function as the environment before it
was read by `R`. -/
theorem envRead (h : ResultInstance n R s t τ R₁) (henv : env.Fresh n)
    (hsc : InferScoped env n m s t) (hΓ : EnvRead R env Γ') : EnvRead R₁ (env.applySubst s) Γ' :=
  (h.agree.envRead henv hΓ).applySubst h.absorbs (henv.noCapture hsc.subst.mentions)

/-- Two runs one after the other, the second in the environment the first left, both matched:
a function extending the second match past the end of both matches them both, and so absorbs
the composition of their substitutions, which exists. -/
theorem compose {n₁ n₂ : Nat} {R₃ : Nat → Ty} {s₂ : Subst} {t₂ τ₂ : Ty}
    (h₁ : ResultInstance n R s t τ R₁) (henv : env.Fresh n) (hsc₁ : InferScoped env n n₁ s t)
    (h₂ : ResultInstance n₁ R₁ s₂ t₂ τ₂ R₂) (hsc₂ : InferScoped (env.applySubst s) n₁ n₂ s₂ t₂)
    (hR : AgreeBelow n₂ R₂ R₃) :
    ∃ r, s.compose s₂ = .ok r ∧ AbsorbsSubst R₃ r ∧ ResultInstance n R s t τ R₃ ∧
      ResultInstance n₁ R₁ s₂ t₂ τ₂ R₃ := by
  have h₁₃ := h₁.mono henv hsc₁ (h₂.agree.trans hR hsc₂.le)
  have h₂₃ := h₂.mono (henv.applySubst_of_scoped hsc₁.le hsc₁.subst.mentions) hsc₂ hR
  obtain ⟨r, hc, hSr⟩ :=
    Subst.compose_complete hsc₁.subst.resolved h₁₃.absorbs hsc₂.subst.sorted h₂₃.absorbs
  exact ⟨r, hc, hSr, h₁₃, h₂₃⟩

/-- On a variable below the run's start, the matching function after the run's substitution is
`R` itself. -/
theorem image_eq (h : ResultInstance n R s t τ R₁) {x : Nat} (hx : x < n) :
    (s.image x).substWith R₁ = R x :=
  (h.absorbs x).trans (h.agree x hx)

end ResultInstance

variable {env Γ' : TypeEnv} {n : Nat} {R : Nat → Ty} {τ : Ty}

/-- One component of a tuple or of `::`, after a scoped run from `n₀` to `n` whose substitution
`R` absorbs: the component is inferred and merged, most generally. -/
theorem inferComponent_complete {order : ComponentOrder} (e : Expr) {n₀ : Nat} {s₀ : Subst}
    (ih : ∀ {env' : TypeEnv} {R' : Nat → Ty}, env'.Fresh n → EnvRead R' env' Γ' →
      ∃ s t m, (Expr.infer order env' e).run n = (.ok (s, t), m) ∧
        ∃ R'', ResultInstance n R' s t τ R'')
    (henv : env.Fresh n₀) (hn : n₀ ≤ n) (hs : SubstScoped env n₀ n s₀) (hS : AbsorbsSubst R s₀)
    (hΓ : EnvRead R env Γ') :
    ∃ r t m, (inferComponent order env s₀ (Expr.infer order · e)).run n = (.ok (r, t), m) ∧
      ∃ R', ResultInstance n R r t τ R' := by
  have hfresh := (componentEnv_scoped order henv hn hs).1
  obtain ⟨s', t, m, h₁, R', hi⟩ := ih hfresh (componentEnv_read order henv hs hS hΓ)
  have hsc := Expr.infer_scoped e hfresh h₁
  obtain ⟨r, hc, hSr⟩ := Subst.compose_complete hs.resolved
    (hi.agree.absorbs hS (hs.mentions_lt henv hn)) hsc.subst.sorted hi.absorbs
  exact ⟨r, t, m, inferComponent_run_iff.2 ⟨s', h₁, hc⟩, R', hi.agree, hSr, hi.ty_eq⟩

/-- The binding of a `let` that the rules type: inference types it, and some extension of `R`
reads the environment it gives the body as an environment where the rules type the body. -/
theorem inferBinding_complete {order : ComponentOrder} {kind : BindingKind} {x : String}
    {value body : Expr}
    (ih : ∀ {env' : TypeEnv} {n' : Nat} {R' : Nat → Ty} {Γ'' : TypeEnv} {τ' : Ty},
      env'.Fresh n' → EnvRead R' env' Γ'' → HasType Γ'' value τ' →
      ∃ s t m, (Expr.infer order env' value).run n' = (.ok (s, t), m) ∧
        ∃ R'', ResultInstance n' R' s t τ' R'')
    (henv : env.Fresh n) (hΓ : EnvRead R env Γ') (h : HasType Γ' (.letIn kind x value body) τ) :
    ∃ s env₁ m, (inferBinding env kind x (Expr.infer order · value)).run n = (.ok (s, env₁), m) ∧
      ∃ R' Γ₁, AgreeBelow n R R' ∧ AbsorbsSubst R' s ∧ EnvRead R' env₁ Γ₁ ∧ HasType Γ₁ body τ := by
  cases h with
  | @letIn _ _ _ _ t₁' _ h₁ h₂ =>
    obtain ⟨s₁, t₁, n₁, hrun, R₁, hi₁⟩ := ih henv hΓ h₁
    have hΓ₁ := hi₁.envRead henv (Expr.infer_scoped value henv hrun) hΓ
    refine ⟨s₁, _, n₁, ?_, R₁, _, hi₁.agree, hi₁.absorbs,
      hΓ₁.extend x (SchemeRead.generalize_apart hΓ₁ t₁), ?_⟩
    · exact inferBinding_plain_run_iff.2 ⟨t₁, hrun, rfl⟩
    · -- the inferred scheme, read apart, is at least as general as the rules' one
      refine h₂.of_generalizes ((TypeEnv.Generalizes.refl Γ').extend x ?_)
      exact hi₁.ty_eq ▸ hΓ₁.generalize_moreGeneral t₁
  | @letRec _ _ _ _ t₁' _ h₁ h₂ =>
    -- the placeholder is read as the rules' type of the value
    have hRp := AgreeBelow.update n t₁' (R := R)
    have henvp := henv.extend_placeholder x
    have hΓp : EnvRead (fun v => if v = n then t₁' else R v) (env.extend x (.mono (.var n)))
        (Γ'.extend x (.mono t₁')) :=
      (hRp.envRead henv hΓ).extend x (by
        simpa [Ty.substWith] using SchemeRead.mono (fun v => if v = n then t₁' else R v) (.var n))
    obtain ⟨s₁, t₁, n₁, hrun, R₁, hi₁⟩ := ih henvp hΓp h₁
    have hsc := Expr.infer_scoped value henvp hrun
    have hunif : (s₁.apply (.var n)).substWith R₁ = t₁.substWith R₁ := by
      rw [hi₁.absorbs.apply, hi₁.ty_eq]
      simp [Ty.substWith, hi₁.agree n (Nat.lt_succ_self n)]
    obtain ⟨u, hu, hSu⟩ := unify_complete hunif
    obtain ⟨s₃, hc, hS₃⟩ :=
      Subst.compose_complete hsc.subst.resolved hi₁.absorbs (sorted_unify hu) hSu
    have hrunB : (inferBinding env .recursive x (Expr.infer order · value)).run n =
        (.ok (s₃, ((env.extend x (.mono (.var n))).applySubst s₃).extend x
          (((env.extend x (.mono (.var n))).applySubst s₃).generalizeRec (s₃.apply t₁) x)),
          n₁) :=
      inferBinding_recursive_run_iff.2 ⟨s₁, t₁, u, hrun, hu, hc, rfl⟩
    obtain ⟨-, hs₃, -, -⟩ :=
      inferBinding_scoped (fun h hr => Expr.infer_scoped value h hr) henv hrunB
    -- the rest of the environment, under the binding's substitution, is read as the rest of `Γ'`
    have hR₁ : AgreeBelow n R R₁ := hRp.trans hi₁.agree (Nat.le_succ n)
    have hΓE : EnvRead R₁ ((env.remove x).applySubst s₃) (Γ'.remove x) :=
      (hR₁.envRead henv.remove (hΓ.remove x)).applySubst hS₃
        (henv.noCapture_of_scoped (fun w hw => TypeEnv.quantifies_remove hw) hs₃.mentions)
    have hty : (s₃.apply t₁).substWith R₁ = t₁' := by rw [hS₃.apply, hi₁.ty_eq]
    refine ⟨s₃, _, n₁, hrunB, R₁, Γ'.extend x ((Γ'.remove x).generalize ((s₃.apply t₁).substWith
      (renameApart (Γ'.remove x) (((env.remove x).applySubst s₃).generalize (s₃.apply t₁)).vars
        R₁))), hR₁, hS₃, ?_, ?_⟩
    · -- both sides bind the name once: rebinding it is binding it in the rest
      rw [TypeEnv.extend_generalizeRec_applySubst henv.sorted,
        ← TypeEnv.extend_remove (hΓ.sorted henv.sorted)]
      exact hΓE.extend x (SchemeRead.generalize_apart hΓE (s₃.apply t₁))
    · refine h₂.of_generalizes ((TypeEnv.Generalizes.refl Γ').extend x ?_)
      exact hty ▸ hΓE.generalize_moreGeneral (s₃.apply t₁)

mutual

/-- Inference is complete against every reading: when the rules type `e` at `τ` in a reading of
the environment under `R`, inference from a fresh counter succeeds, and an extension of `R`
past the counter absorbs its substitution and sends its type to `τ`. -/
theorem Expr.infer_complete : ∀ (e : Expr) {order : ComponentOrder} {env : TypeEnv} {n : Nat}
    {R : Nat → Ty} {Γ' : TypeEnv} {τ : Ty}, env.Fresh n → EnvRead R env Γ' → HasType Γ' e τ →
    ∃ s t m, (Expr.infer order env e).run n = (.ok (s, t), m) ∧ ∃ R', ResultInstance n R s t τ R'
  | .lit c, order, env, n, R, Γ', τ, _, _, .lit hc => by
    obtain ⟨t, n', hrun, R', hR', ht⟩ := Const.infer_complete hc n R
    refine ⟨.empty, t, n', ?_, R', hR', absorbsSubst_empty R', ht⟩
    exact Expr.infer_lit_run_iff.2 ⟨hrun, rfl⟩
  | .var x, order, env, n, R, Γ', τ, henv, hΓ, .var hx hi => by
    -- the reading binds the name to a reading of the scheme `env` binds it to
    obtain ⟨sc, hsc, hread⟩ := hΓ.find?_right hx
    obtain ⟨t, n', hrun, R', hR', ht⟩ := Scheme.instantiate_complete
      (fun v hv _ => henv.vars_lt _ (SortedMap.mem_entries_of_find? hsc) v hv) hread hi
    refine ⟨.empty, t, n', ?_, R', hR', absorbsSubst_empty R', ht⟩
    exact Expr.infer_var_run_iff.2 ⟨sc, hsc, hrun, rfl⟩
  | .binop op l r, order, env, n, R, Γ', τ, henv, hΓ, .binop hop hl hr => by
    obtain ⟨s₁, tl, n₁, h₁, R₁, hi₁⟩ := Expr.infer_complete l henv hΓ hl
    have hsc₁ := Expr.infer_scoped l henv h₁
    have henv₁ := henv.applySubst_of_scoped hsc₁.le hsc₁.subst.mentions
    obtain ⟨s₂, tr, n₂, h₂, R₂, hi₂⟩ := Expr.infer_complete r henv₁ (hi₁.envRead henv hsc₁ hΓ) hr
    have hsc₂ := Expr.infer_scoped r henv₁ h₂
    obtain ⟨el, er, res, n₃, hsig, R₃, hR₃, hel, her, hres⟩ := BinOp.signature_complete hop n₂ R₂
    -- `R₃` matches both operands and the operator's signature
    obtain ⟨s₃, hc, hS₃, hi₁₃, hi₂₃⟩ := hi₁.compose henv hsc₁ hi₂ hsc₂ hR₃
    have hres₃ := hsc₁.subst.resolved.compose hc
    obtain ⟨s₄, hm₁, hS₄⟩ := Subst.mergeUnifier_complete hres₃ hS₃
      (a := s₃.apply tl) (b := s₃.apply el) (by rw [hS₃.apply, hS₃.apply, hi₁₃.ty_eq, hel])
    obtain ⟨s₅, hm₂, hS₅⟩ := Subst.mergeUnifier_complete (Subst.mergeUnifier_spec hres₃ hm₁).1
      hS₄ (a := s₄.apply tr) (b := s₄.apply er) (by rw [hS₄.apply, hS₄.apply, hi₂₃.ty_eq, her])
    refine ⟨s₅, s₅.apply res, n₃, ?_, R₃, hi₁₃.agree, hS₅, by rw [hS₅.apply, hres]⟩
    exact Expr.infer_binop_run_iff.2 ⟨_, _, _, _, _, _, _, _, _, _, _, h₁, h₂, hsig, hc, hm₁, hm₂,
      rfl⟩
  | .ite c a b, order, env, n, R, Γ', _, henv, hΓ, .ite hc ha hb => by
    obtain ⟨s₁, tc, n₁, h₁, R₁, hi₁⟩ := Expr.infer_complete c henv hΓ hc
    have hsc₁ := Expr.infer_scoped c henv h₁
    have henv₁ := henv.applySubst_of_scoped hsc₁.le hsc₁.subst.mentions
    have hΓ₁ := hi₁.envRead henv hsc₁ hΓ
    obtain ⟨s₂, tt, n₂, h₂, R₂, hi₂⟩ := Expr.infer_complete a henv₁ hΓ₁ ha
    have hsc₂ := Expr.infer_scoped a henv₁ h₂
    have henv₂ := henv₁.applySubst_of_scoped hsc₂.le hsc₂.subst.mentions
    obtain ⟨s₃, te, n₃, h₃, R₃, hi₃⟩ :=
      Expr.infer_complete b henv₂ (hi₂.envRead henv₁ hsc₂ hΓ₁) hb
    have hsc₃ := Expr.infer_scoped b henv₂ h₃
    -- `R₃` matches the condition and both branches
    obtain ⟨s₄, hc₁, hS₄, hi₁₃, hi₂₃⟩ := hi₁.compose henv hsc₁ hi₂ hsc₂ hi₃.agree
    have hres₄ := hsc₁.subst.resolved.compose hc₁
    obtain ⟨s₅, hc₂, hS₅⟩ := Subst.compose_complete hres₄ hS₄ hsc₃.subst.sorted hi₃.absorbs
    have hres₅ := hres₄.compose hc₂
    obtain ⟨s₆, hm₁, hS₆⟩ := Subst.mergeUnifier_complete hres₅ hS₅ (a := s₅.apply tc)
      (b := .bool) (by rw [hS₅.apply, hi₁₃.ty_eq]; rfl)
    obtain ⟨s₇, hm₂, hS₇⟩ := Subst.mergeUnifier_complete (Subst.mergeUnifier_spec hres₅ hm₁).1
      hS₆ (a := s₆.apply tt) (b := s₆.apply te)
      (by rw [hS₆.apply, hS₆.apply, hi₂₃.ty_eq, hi₃.ty_eq])
    refine ⟨s₇, s₇.apply tt, n₃, ?_, R₃, hi₁₃.agree, hS₇, by rw [hS₇.apply, hi₂₃.ty_eq]⟩
    exact Expr.infer_ite_run_iff.2 ⟨_, _, _, _, _, _, _, _, _, _, _, h₁, h₂, h₃, hc₁, hc₂, hm₁,
      hm₂, rfl⟩
  | .matchOn e [], order, env, n, R, Γ', τ, _, _, .matchOn hne _ _ => absurd rfl hne
  | .matchOn e (arm :: arms), order, env, n, R, Γ', τ, henv, hΓ, .matchOn _ he harms => by
    obtain ⟨s₁, ts, n₁, h₁, R₁, hi₁⟩ := Expr.infer_complete e henv hΓ he
    have hsc₁ := Expr.infer_scoped e henv h₁
    -- the result type is drawn after the scrutinee, and read as the rules' result type
    have hi₁₂ := hi₁.mono henv hsc₁ (AgreeBelow.update n₁ τ)
    obtain ⟨s, m, h₂, R', hR', hS'⟩ := Expr.inferArms_complete (arm :: arms) henv
      (Nat.le_trans hsc₁.le (Nat.le_succ n₁)) (hsc₁.subst.mono (Nat.le_succ n₁))
      (fun w hw => (hsc₁.ty w hw).mono (Nat.le_succ n₁)) (TypeEnv.Scoped.var_drawn hsc₁.le)
      hi₁₂.absorbs (hi₁₂.agree.envRead henv hΓ) hi₁₂.ty_eq (by simp [Ty.substWith]) harms
    refine ⟨s, s.apply (.var n₁), m, ?_, R',
      hi₁₂.agree.trans hR' (Nat.le_trans hsc₁.le (Nat.le_succ n₁)), hS', ?_⟩
    · exact Expr.infer_matchOn_run_iff.2 ⟨_, _, _, h₁, h₂, rfl⟩
    · rw [hS'.apply]
      simp [Ty.substWith, hR' n₁ (Nat.lt_succ_self n₁)]
  | .letIn kind x e₁ e₂, order, env, n, R, Γ', τ, henv, hΓ, h => by
    obtain ⟨s₁, env₁, n₁, h₁, R₁, Γ₁, hR₁, hS₁, hΓ₁, hb⟩ :=
      inferBinding_complete (fun hf hr ht => Expr.infer_complete e₁ hf hr ht) henv hΓ h
    obtain ⟨hn₁, hs₁, henv₁, -⟩ :=
      inferBinding_scoped (fun h hr => Expr.infer_scoped e₁ h hr) henv h₁
    obtain ⟨s₂, tb, n₂, h₂, R₂, hi₂⟩ := Expr.infer_complete e₂ henv₁ hΓ₁ hb
    obtain ⟨s₃, hc, hS₃⟩ := Subst.compose_complete hs₁.resolved
      (hi₂.agree.absorbs hS₁ (hs₁.mentions_lt henv hn₁))
      (Expr.infer_scoped e₂ henv₁ h₂).subst.sorted hi₂.absorbs
    refine ⟨s₃, s₃.apply tb, n₂, ?_, R₂, hR₁.trans hi₂.agree hn₁, hS₃,
      by rw [hS₃.apply, hi₂.ty_eq]⟩
    exact Expr.infer_letIn_run_iff.2 ⟨_, _, _, _, _, h₁, h₂, hc, rfl⟩
  | .lam p body, order, env, n, R, Γ', _, henv, hΓ, .lam hp hb => by
    obtain ⟨penv, tp, n₁, h₁, R₁, hR₁, htp, hΓp⟩ := Pattern.infer_complete p henv hΓ hp
    obtain ⟨Δ, -, rfl, hn₁, htpv, hΔ⟩ := Pattern.infer_spec p henv.vars_lt h₁
    obtain ⟨s, tb, m, h₂, R₂, hi₂⟩ := Expr.infer_complete body (henv.bindAll hn₁ hΔ) hΓp hb
    refine ⟨s, s.apply (.arrow tp tb), m, ?_, R₂, hR₁.trans hi₂.agree hn₁, hi₂.absorbs, ?_⟩
    · exact Expr.infer_lam_run_iff.2 ⟨_, _, _, _, h₁, h₂, rfl⟩
    · rw [hi₂.absorbs.apply]
      simp only [Ty.substWith]
      rw [hi₂.agree.substWith (fun v hv => (htpv v hv).2), htp, hi₂.ty_eq]
  | .tuple items, order, env, n, R, Γ', _, henv, hΓ, .tuple hitems => by
    obtain ⟨s, ts, m, h₁, R', hR', hS', hts⟩ := Expr.inferItems_complete items henv
      (Nat.le_refl n) SubstScoped.empty (absorbsSubst_empty R) hΓ hitems
    refine ⟨s, .tuple (ts.map s.apply), m, ?_, R', hR', hS', ?_⟩
    · exact Expr.infer_tuple_run_iff.2 ⟨_, h₁, rfl⟩
    · rw [← Subst.apply_tuple, hS'.apply]
      simp only [Ty.substWith, hts]
  | .cons hd tl, order, env, n, R, Γ', _, henv, hΓ, .cons hh ht => by
    obtain ⟨s₁, th, n₁, h₁, R₁, hi₁⟩ := inferComponent_complete hd
      (fun hf hr => Expr.infer_complete hd hf hr hh) henv (Nat.le_refl n) SubstScoped.empty
      (absorbsSubst_empty R) hΓ
    obtain ⟨hn₁, hs₁, hth⟩ := inferComponent_scoped (fun h hr => Expr.infer_scoped hd h hr)
      henv (Nat.le_refl n) SubstScoped.empty h₁
    obtain ⟨s₂, tt, n₂, h₂, R₂, hi₂⟩ := inferComponent_complete tl
      (fun hf hr => Expr.infer_complete tl hf hr ht) henv hn₁ hs₁ hi₁.absorbs
      (hi₁.agree.envRead henv hΓ)
    obtain ⟨-, hs₂, -⟩ := inferComponent_scoped (fun h hr => Expr.infer_scoped tl h hr)
      henv hn₁ hs₁ h₂
    -- `R₂` reads the head's type as `R₁` did, so it unifies the list of it with the tail's type
    have hth₂ : th.substWith R₂ = th.substWith R₁ :=
      hi₂.agree.substWith (fun w hw => TypeEnv.Scoped.lt henv hn₁ (hth w hw))
    obtain ⟨s₃, hm, hS₃⟩ := Subst.mergeUnifier_complete hs₂.resolved hi₂.absorbs
      (a := .list (s₂.apply th)) (b := s₂.apply tt) (by
        simp only [Ty.substWith]
        rw [hi₂.absorbs.apply, hi₂.absorbs.apply, hth₂, hi₁.ty_eq, hi₂.ty_eq])
    refine ⟨s₃, s₃.apply (s₂.apply tt), n₂, ?_, R₂, hi₁.agree.trans hi₂.agree hn₁, hS₃,
      by rw [hS₃.apply, hi₂.absorbs.apply, hi₂.ty_eq]⟩
    exact Expr.infer_cons_run_iff.2 ⟨_, _, _, _, _, h₁, h₂, hm, rfl⟩
  | .app f a, order, env, n, R, Γ', τ, henv, hΓ, @HasType.app _ _ _ ta _ hf ha => by
    obtain ⟨s₁, tf, n₁, h₁, R₁, hi₁⟩ := Expr.infer_complete f henv hΓ hf
    have hsc₁ := Expr.infer_scoped f henv h₁
    have henv₁ := henv.applySubst_of_scoped hsc₁.le hsc₁.subst.mentions
    obtain ⟨s₂, ta', n₂, h₂, R₂, hi₂⟩ := Expr.infer_complete a henv₁ (hi₁.envRead henv hsc₁ hΓ) ha
    have hsc₂ := Expr.infer_scoped a henv₁ h₂
    -- the result type is drawn after the argument, and read as the rules' result type
    obtain ⟨s₃, hc, hS₃, hi₁₃, hi₂₃⟩ :=
      hi₁.compose henv hsc₁ hi₂ hsc₂ (AgreeBelow.update n₂ τ (R := R₂))
    obtain ⟨s₄, hm, hS₄⟩ := Subst.mergeUnifier_complete (hsc₁.subst.resolved.compose hc) hS₃
      (a := s₃.apply tf) (b := .arrow (s₃.apply ta') (.var n₂)) (by
        simp only [Ty.substWith, hS₃.apply, hi₁₃.ty_eq, hi₂₃.ty_eq, if_true])
    refine ⟨s₄, s₄.apply (.var n₂), n₂ + 1, ?_, _, hi₁₃.agree, hS₄, ?_⟩
    · exact Expr.infer_app_run_iff.2 ⟨_, _, _, _, _, _, _, h₁, h₂, hc, hm, rfl, rfl⟩
    · rw [hS₄.apply]
      simp [Ty.substWith]

/-- The arms form of `Expr.infer_complete`: after a scoped run from `n₀` to `n` whose
substitution `R` absorbs, with the scrutinee's and the result type read as the rules' ones,
inference types the arms and an extension of `R` absorbs the result. -/
theorem Expr.inferArms_complete : ∀ (arms : List (Pattern × Expr)) {order : ComponentOrder}
    {env : TypeEnv} {ts r : Ty} {s₀ : Subst} {n₀ n : Nat} {R : Nat → Ty} {Γ' : TypeEnv}
    {ts' τ : Ty}, env.Fresh n₀ → n₀ ≤ n → SubstScoped env n₀ n s₀ →
    (∀ w ∈ ts.vars, env.Scoped n₀ n w) → (∀ w ∈ r.vars, env.Scoped n₀ n w) →
    AbsorbsSubst R s₀ → EnvRead R env Γ' → ts.substWith R = ts' → r.substWith R = τ →
    ArmsHaveType Γ' ts' arms τ →
    ∃ s m, (Expr.inferArms order env ts r s₀ arms).run n = (.ok s, m) ∧
      ∃ R', AgreeBelow n R R' ∧ AbsorbsSubst R' s
  | [], order, env, ts, r, s₀, n₀, n, R, Γ', ts', τ, _, _, _, _, _, hS₀, _, _, _, .nil =>
    ⟨s₀, n, rfl, R, AgreeBelow.refl n R, hS₀⟩
  | (p, body) :: rest, order, env, ts, r, s₀, n₀, n, R, Γ', ts', τ, henv, hn, hs₀, hts, hr, hS₀,
      hΓ, hts', hr', .cons hp hb hrest => by
    have henv₀ : (env.applySubst s₀).Fresh n := henv.applySubst_of_scoped hn hs₀.mentions
    obtain ⟨penv, tp, n₁, h₁, R₁, hR₁, htp, hΓp⟩ := Pattern.infer_complete p henv₀
      (hΓ.applySubst hS₀ (henv.noCapture hs₀.mentions)) hp
    have hts_lt : ∀ w ∈ ts.vars, w < n := fun w hw => TypeEnv.Scoped.lt henv hn (hts w hw)
    have hr_lt : ∀ w ∈ r.vars, w < n := fun w hw => TypeEnv.Scoped.lt henv hn (hr w hw)
    -- `R₁` identifies the scrutinee's type with the pattern's
    have hS₀₁ : AbsorbsSubst R₁ s₀ := hR₁.absorbs hS₀ (hs₀.mentions_lt henv hn)
    obtain ⟨s₁, hm₁, hS₁⟩ := Subst.mergeUnifier_complete hs₀.resolved hS₀₁
      (a := s₀.apply ts) (b := s₀.apply tp)
      (by rw [hS₀₁.apply, hS₀₁.apply, hR₁.substWith hts_lt, hts', htp])
    obtain ⟨Δ, -, rfl, hn₁, hs₁, hnc, henvB, -⟩ := inferArmPattern_scoped henv hn hs₀ hts h₁ hm₁
    -- the body, in the pattern's environment under the unifier
    obtain ⟨s₂, tb, n₂, h₂, R₂, hi₂⟩ := Expr.infer_complete body henvB (hΓp.applySubst hS₁ hnc) hb
    have hsc₂ := Expr.infer_scoped body henvB h₂
    obtain ⟨s₃, hc, hS₃⟩ := Subst.compose_complete hs₁.resolved
      (hi₂.agree.absorbs hS₁ (hs₁.mentions_lt henv (Nat.le_trans hn hn₁))) hsc₂.subst.sorted
      hi₂.absorbs
    have hR₂ : AgreeBelow n R R₂ := hR₁.trans hi₂.agree hn₁
    obtain ⟨s₄, hm₂, hS₄⟩ := Subst.mergeUnifier_complete (hs₁.resolved.compose hc) hS₃
      (a := s₃.apply r) (b := s₃.apply tb)
      (by rw [hS₃.apply, hS₃.apply, hR₂.substWith hr_lt, hr', hi₂.ty_eq])
    obtain ⟨-, -, -, -, -, hn₂, hs₄⟩ := inferArm_scoped henv hn hs₀ hts hr h₁ hm₁
      (fun hf => Expr.infer_scoped body hf h₂) hc hm₂
    -- the remaining arms, under `R₂`
    obtain ⟨s, m, h₃, R', hR', hS'⟩ := Expr.inferArms_complete rest henv (Nat.le_trans hn hn₂) hs₄
      (fun w hw => (hts w hw).mono hn₂) (fun w hw => (hr w hw).mono hn₂) hS₄
      (hR₂.envRead (henv.mono hn) hΓ) (by rw [hR₂.substWith hts_lt, hts'])
      (by rw [hR₂.substWith hr_lt, hr']) hrest
    refine ⟨s, m, ?_, R', hR₂.trans hR' hn₂, hS'⟩
    exact Expr.inferArms_cons_run_iff.2 ⟨_, _, _, _, _, _, _, _, _, h₁, hm₁, h₂, hc, hm₂, h₃⟩

/-- The list form of `Expr.infer_complete`, for the components of a tuple after a scoped run
from `n₀` to `n` whose substitution `R` absorbs. -/
theorem Expr.inferItems_complete : ∀ (items : List Expr) {order : ComponentOrder}
    {env : TypeEnv} {s₀ : Subst} {n₀ n : Nat} {R : Nat → Ty} {Γ' : TypeEnv} {ts' : List Ty},
    env.Fresh n₀ → n₀ ≤ n → SubstScoped env n₀ n s₀ → AbsorbsSubst R s₀ → EnvRead R env Γ' →
    ItemsHaveTypes Γ' items ts' →
    ∃ s ts m, (Expr.inferItems order env s₀ items).run n = (.ok (s, ts), m) ∧
      ∃ R', AgreeBelow n R R' ∧ AbsorbsSubst R' s ∧ Ty.substWithList R' ts = ts'
  | [], order, env, s₀, n₀, n, R, Γ', _, _, _, _, hS₀, _, .nil =>
    ⟨s₀, [], n, rfl, R, AgreeBelow.refl n R, hS₀, rfl⟩
  | e :: es, order, env, s₀, n₀, n, R, Γ', _, henv, hn, hs₀, hS₀, hΓ, .cons he hes => by
    obtain ⟨s₁, t, n₁, h₁, R₁, hi₁⟩ := inferComponent_complete e
      (fun hf hr => Expr.infer_complete e hf hr he) henv hn hs₀ hS₀ hΓ
    obtain ⟨hn₁, hs₁, ht⟩ := inferComponent_scoped (fun h hr => Expr.infer_scoped e h hr)
      henv hn hs₀ h₁
    obtain ⟨s, ts, m, h₂, R₂, hR₂, hS₂, hts⟩ := Expr.inferItems_complete es henv
      (Nat.le_trans hn hn₁) hs₁ hi₁.absorbs (hi₁.agree.envRead (henv.mono hn) hΓ) hes
    refine ⟨s, t :: ts, m, ?_, R₂, hi₁.agree.trans hR₂ hn₁, hS₂, ?_⟩
    · exact Expr.inferItems_cons_run_iff.2 ⟨_, _, _, _, h₁, h₂, rfl⟩
    · simp only [Ty.substWithList]
      rw [hR₂.substWith (fun w hw => TypeEnv.Scoped.lt henv (Nat.le_trans hn hn₁) (ht w hw)),
        hi₁.ty_eq, hts]

end

/-- Inference finds every typing, most generally: if the rules type `e` at `τ` in the
environment read under `S`, inference from a counter fresh for the environment succeeds, in
either component order, and one `R` sends its substitution to `S` on the environment's free
variables and its type to `τ`. -/
theorem Expr.infer_principal {order : ComponentOrder} {env Γ' : TypeEnv} {e : Expr} {n : Nat}
    {S : Nat → Ty} {τ : Ty} (henv : env.Fresh n) (hΓ : EnvRead S env Γ') (h : HasType Γ' e τ) :
    ∃ s t m, (Expr.infer order env e).run n = (.ok (s, t), m) ∧
      ∃ R : Nat → Ty, (∀ x ∈ env.freeVars, (s.image x).substWith R = S x) ∧ t.substWith R = τ := by
  obtain ⟨s, t, m, hrun, R, hi⟩ := Expr.infer_complete e henv hΓ h
  exact ⟨s, t, m, hrun, R, fun x hx => hi.image_eq (henv.freeVars_lt hx), hi.ty_eq⟩

/-- A name bound to a type variable, read as `int -> bool` and applied to `1`: inference finds a
type for the application, and a refinement of its result gives the reading back. -/
theorem Expr.infer_principal_applied_name :
    (TypeEnv.empty.extend "f" (.mono (.var 0))).Fresh 1 ∧
      EnvRead (fun _ => .arrow .int .bool) (TypeEnv.empty.extend "f" (.mono (.var 0)))
        (TypeEnv.empty.extend "f" (.mono (.arrow .int .bool))) ∧
      HasType (TypeEnv.empty.extend "f" (.mono (.arrow .int .bool)))
        (.app (.var "f") (.lit (.int 1))) .bool ∧
      ∃ s t m, (Expr.infer .sequential (TypeEnv.empty.extend "f" (.mono (.var 0)))
          (.app (.var "f") (.lit (.int 1)))).run 1 = (.ok (s, t), m) ∧
        ∃ R : Nat → Ty, (∀ x ∈ (TypeEnv.empty.extend "f" (.mono (.var 0))).freeVars,
          (s.image x).substWith R = .arrow .int .bool) ∧ t.substWith R = .bool :=
  have henv := (TypeEnv.Fresh.empty 0).extend_placeholder "f"
  have hΓ : EnvRead (fun _ => .arrow .int .bool) (TypeEnv.empty.extend "f" (.mono (.var 0)))
      (TypeEnv.empty.extend "f" (.mono (.arrow .int .bool))) :=
    EnvRead.extend List.Forall₂.nil "f" (SchemeRead.mono _ (.var 0))
  have h : HasType (TypeEnv.empty.extend "f" (.mono (.arrow .int .bool)))
      (.app (.var "f") (.lit (.int 1))) .bool :=
    .app (.var rfl ⟨Ty.var, fun _ _ => rfl, rfl⟩) (.lit (.int 1))
  ⟨henv, hΓ, h, Expr.infer_principal henv hΓ h⟩

end HindleyMilner
