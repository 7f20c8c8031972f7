import HindleyMilner.Proofs.Infer.Scoped
import Mathlib
/-!
# Soundness of inference

Every type that inference gives is derivable by the typing rules (`Expr.infer_sound`): from a
counter fresh for the environment, a run that gives `(s, t)` has
`HasType (env.applySubst s) e t`.

The induction proves more (`Expr.infer_hasType`): the typing holds under every later
refinement `S` of the run's substitution (`AbsorbsSubst S s`), in every reading of the
environment under `S` (`EnvRead`). Readings rename quantified variables where `applySubst`
keeps them, so they follow what the rules do to environments; the environment under `s` is
the reading under `s` itself, since the scoping invariant rules out capture
(`Expr.infer_scoped`).

A `let` is where the refinement changes: its value is typed under `S` with the generalized
variables renamed past every free variable of the reading, so that generalizing in the reading
gives the reading of the generalized scheme (`inferBinding_hasType`).
-/

namespace HindleyMilner

variable {env Γ' : TypeEnv} {n m : Nat} {s r : Subst} {S : Nat → Ty} {a b : Ty}

namespace AbsorbsSubst

/-- A function absorbing `s` identifies what `s` identifies. -/
theorem substWith_eq (hS : AbsorbsSubst S s) (h : s.apply a = s.apply b) :
    a.substWith S = b.substWith S := by
  rw [← hS.apply a, h, hS.apply b]

/-- Absorbing a composition is absorbing both of its parts. -/
theorem of_compose {o : Subst} (hS : AbsorbsSubst S r) (hs : s.Resolved)
    (h : s.compose o = .ok r) : AbsorbsSubst S s ∧ AbsorbsSubst S o := by
  obtain ⟨-, hs', ho, -⟩ := Subst.compose_spec hs h
  exact ⟨hS.trans hs', hS.trans ho⟩

/-- Absorbing a merged unifier is absorbing the substitution it extends and identifying the two
sides unified. -/
theorem of_mergeUnifier (hS : AbsorbsSubst S r) (hs : s.Resolved)
    (h : s.mergeUnifier a b = .ok r) : AbsorbsSubst S s ∧ a.substWith S = b.substWith S := by
  obtain ⟨-, hs', heq, -⟩ := Subst.mergeUnifier_spec hs h
  exact ⟨hS.trans hs', hS.substWith_eq heq⟩

end AbsorbsSubst

/-- A resolved substitution followed by any replacement absorbs it. -/
theorem Subst.Resolved.absorbs_substWith {σ : Subst} (h : σ.Resolved) (T : Nat → Ty) :
    AbsorbsSubst (fun v => (σ.image v).substWith T) σ := by
  intro v
  rw [← Ty.substWith_substWith, h.absorbs v]

/-- The reading for the value of a `let`: `σ`, the value's substitution, followed by `S` with the
generalized variables `q` sent by `g`. When `σ` captures nothing and no variable of `q` is free
in `Γ` under `σ`, it reads `Γ` as `S` does. -/
theorem EnvRead.before_generalize {Γ : TypeEnv} {σ : Subst} {q : List Nat} {g : Nat → Ty}
    (hΓ : EnvRead S Γ Γ') (hS : AbsorbsSubst S σ) (hnc : Γ.NoCapture σ)
    (hq : ∀ v ∈ q, v ∉ (Γ.applySubst σ).freeVars) :
    EnvRead (fun v => (σ.image v).substWith (fun u => if u ∈ q then g u else S u)) Γ Γ' := by
  refine hΓ.congr (fun w hw => ?_)
  -- the image of a free variable is free after `σ`, so none of its variables is generalized
  rw [← hS w]
  refine Ty.substWith_congr _ (fun u hu => ?_)
  rw [if_neg (fun huq => hq u huq (TypeEnv.mem_freeVars_applySubst_of_noCapture hnc hw hu))]

/-- One component of a tuple or of `::`, read under `S`: the reading types it, and `S` absorbs
the substitution before it. -/
theorem inferComponent_hasType {order : ComponentOrder} {e : Expr} {n₀ : Nat} {s₀ : Subst}
    {t : Ty}
    (ih : ∀ {env' : TypeEnv} {m : Nat} {s : Subst} {t : Ty}, env'.Fresh n →
      (Expr.infer order env' e).run n = (.ok (s, t), m) →
      ∀ {S : Nat → Ty} {Γ' : TypeEnv}, AbsorbsSubst S s → EnvRead S env' Γ' →
        HasType Γ' e (t.substWith S))
    (henv : env.Fresh n₀) (hn : n₀ ≤ n) (hs : SubstScoped env n₀ n s₀)
    (h : (inferComponent order env s₀ (Expr.infer order · e)).run n = (.ok (r, t), m))
    (hS : AbsorbsSubst S r) (hΓ : EnvRead S env Γ') :
    AbsorbsSubst S s₀ ∧ HasType Γ' e (t.substWith S) := by
  obtain ⟨s', hrun, hr⟩ := inferComponent_run_iff.1 h
  obtain ⟨hS₀, hS'⟩ := hS.of_compose hs.resolved hr
  exact ⟨hS₀, ih (componentEnv_scoped order henv hn hs).1 hrun hS'
    (componentEnv_read order henv hs hS₀ hΓ)⟩

/-- The binding of a `let`, read under `S`: some reading of the environment it gives the body is
such that every typing of a body there types the whole `let`. -/
theorem inferBinding_hasType {order : ComponentOrder} {kind : BindingKind} {x : String}
    {value : Expr} {env₁ : TypeEnv}
    (ih : ∀ {env' : TypeEnv} {n m : Nat} {s : Subst} {t : Ty}, env'.Fresh n →
      (Expr.infer order env' value).run n = (.ok (s, t), m) →
      ∀ {S : Nat → Ty} {Γ' : TypeEnv}, AbsorbsSubst S s → EnvRead S env' Γ' →
        HasType Γ' value (t.substWith S))
    (henv : env.Fresh n)
    (h : (inferBinding env kind x (Expr.infer order · value)).run n = (.ok (s, env₁), m))
    (hS : AbsorbsSubst S s) (hΓ : EnvRead S env Γ') :
    ∃ Γ₁', EnvRead S env₁ Γ₁' ∧
      ∀ body t, HasType Γ₁' body t → HasType Γ' (.letIn kind x value body) t := by
  cases kind with
  | plain =>
    obtain ⟨t, hrun, rfl⟩ := inferBinding_plain_run_iff.1 h
    have hsc := Expr.infer_scoped value henv hrun
    have hnc := henv.noCapture hsc.subst.mentions
    have hΓ₁ := hΓ.applySubst hS hnc
    -- generalized variables are renamed past every free variable of the reading
    let S₂ := renameApart Γ' ((env.applySubst s).generalize t).vars S
    have hval : HasType Γ' value (t.substWith S₂) := by
      have := ih henv hrun (hsc.subst.resolved.absorbs_substWith S₂)
        (hΓ.before_generalize hS hnc (fun v hv => (TypeEnv.mem_generalize_vars.1 hv).2))
      rwa [← Ty.substWith_substWith, ← Subst.apply_eq_substWith, hsc.apply_eq] at this
    exact ⟨_, hΓ₁.extend x (SchemeRead.generalize_apart hΓ₁ t), fun body tb hb => .letIn hval hb⟩
  | recursive =>
    obtain ⟨-, hs, -, -⟩ :=
      inferBinding_scoped (fun h hr => Expr.infer_scoped value h hr) henv h
    obtain ⟨s₁, t, s₂, hrun, hu, hc, rfl⟩ := inferBinding_recursive_run_iff.1 h
    have hsc := Expr.infer_scoped value (henv.extend_placeholder x) hrun
    obtain ⟨-, habs₁, habs₂, -⟩ := Subst.compose_spec hsc.subst.resolved hc
    -- the binding's substitution identifies the placeholder with the value's type
    have hpt : s.apply (.var n) = s.apply t := by
      have := habs₂.substWith_eq (unify_apply_eq hu)
      rwa [habs₁.apply] at this
    have hnc : (env.remove x).NoCapture s :=
      henv.noCapture_of_scoped (fun w hw => TypeEnv.quantifies_remove hw) hs.mentions
    have hΓE := (hΓ.remove x).applySubst hS hnc
    have hsorted := hΓ.sorted henv.sorted
    let S₂ :=
      renameApart (Γ'.remove x) (((env.remove x).applySubst s).generalize (s.apply t)).vars S
    let S₁ : Nat → Ty := fun v => (s.image v).substWith S₂
    -- the value is typed with the name read as the value's own type
    have hread : EnvRead S₁ (env.extend x (.mono (.var n)))
        (Γ'.extend x (.mono ((s.apply t).substWith S₂))) := by
      have hp : SchemeRead S₁ (.mono (.var n)) (.mono ((s.apply t).substWith S₂)) := by
        rw [← hpt, Subst.apply_var_eq_image]
        exact SchemeRead.mono S₁ (.var n)
      rw [← TypeEnv.extend_remove henv.sorted, ← TypeEnv.extend_remove hsorted]
      exact ((hΓ.remove x).before_generalize hS hnc
        (fun v hv => (TypeEnv.mem_generalize_vars.1 hv).2)).extend x hp
    have hval : HasType (Γ'.extend x (.mono ((s.apply t).substWith S₂))) value
        ((s.apply t).substWith S₂) := by
      have := ih (henv.extend_placeholder x) hrun
        ((hs.resolved.absorbs_substWith S₂).trans habs₁) hread
      rwa [← Ty.substWith_substWith, ← Subst.apply_eq_substWith] at this
    refine ⟨Γ'.extend x (Γ'.generalizeRec ((s.apply t).substWith S₂) x), ?_,
      fun body tb hb => .letRec hval hb⟩
    -- both sides bind the name once: rebinding it is binding it in the rest
    rw [TypeEnv.extend_generalizeRec_applySubst henv.sorted, TypeEnv.generalizeRec,
      ← TypeEnv.extend_remove hsorted]
    exact hΓE.extend x (SchemeRead.generalize_apart hΓE (s.apply t))

mutual

/-- Inference is sound under every refinement of its substitution: the type it gives,
refined by `S`, is derivable in every reading of the environment under `S`. -/
theorem Expr.infer_hasType : ∀ (e : Expr) {order : ComponentOrder} {env : TypeEnv} {n m : Nat}
    {s : Subst} {t : Ty}, env.Fresh n → (Expr.infer order env e).run n = (.ok (s, t), m) →
    ∀ {S : Nat → Ty} {Γ' : TypeEnv}, AbsorbsSubst S s → EnvRead S env Γ' →
      HasType Γ' e (t.substWith S)
  | .lit c, order, env, n, m, s, t, _, h, S, Γ', _, _ => by
    obtain ⟨hc, -⟩ := Expr.infer_lit_run_iff.1 h
    exact .lit (Const.infer_spec hc).1.substWith
  | .var x, order, env, n, m, s, t, _, h, S, Γ', _, hΓ => by
    obtain ⟨sc, hsc, hi, -⟩ := Expr.infer_var_run_iff.1 h
    -- the reading binds the name to a reading of its scheme, which has the instance read
    obtain ⟨sc', hsc', hread⟩ := hΓ.find? hsc
    exact .var hsc' (hread.instance_substWith (Scheme.instantiate_spec hi).1)
  | .binop op l r, order, env, n, m, s, t, henv, h, S, Γ', hS, hΓ => by
    obtain ⟨s₁, tl, n₁, s₂, tr, n₂, el, er, res, s₃, s₄, h₁, h₂, hsig, hc, hm₁, hm₂, rfl⟩ :=
      Expr.infer_binop_run_iff.1 h
    have hl := Expr.infer_scoped l henv h₁
    have hs₃ := Subst.Resolved.compose hl.subst.resolved hc
    -- `S` absorbs every substitution of the run, and identifies each operand with its slot
    obtain ⟨hS₄, hreq⟩ := hS.of_mergeUnifier (Subst.mergeUnifier_spec hs₃ hm₁).1 hm₂
    obtain ⟨hS₃, hleq⟩ := hS₄.of_mergeUnifier hs₃ hm₁
    obtain ⟨hS₁, hS₂⟩ := hS₃.of_compose hl.subst.resolved hc
    rw [hS₄.apply, hS₄.apply] at hreq
    rw [hS₃.apply, hS₃.apply] at hleq
    rw [hS.apply]
    refine .binop (BinOp.signature_spec hsig).1.substWith ?_ ?_
    · rw [← hleq]
      exact Expr.infer_hasType l henv h₁ hS₁ hΓ
    · rw [← hreq]
      exact Expr.infer_hasType r (henv.applySubst_of_scoped hl.le hl.subst.mentions) h₂ hS₂
        (hΓ.applySubst hS₁ (henv.noCapture hl.subst.mentions))
  | .ite c t e, order, env, n, m, s, ty, henv, h, S, Γ', hS, hΓ => by
    obtain ⟨s₁, tc, n₁, s₂, tt, n₂, s₃, te, s₄, s₅, s₆, h₁, h₂, h₃, hc₁, hc₂, hm₁, hm₂, rfl⟩ :=
      Expr.infer_ite_run_iff.1 h
    have hc := Expr.infer_scoped c henv h₁
    have henv₁ := henv.applySubst_of_scoped hc.le hc.subst.mentions
    have ht := Expr.infer_scoped t henv₁ h₂
    have hs₄ := Subst.Resolved.compose hc.subst.resolved hc₁
    have hs₅ := Subst.Resolved.compose hs₄ hc₂
    -- `S` absorbs every substitution of the run, makes the condition `bool` and the branches equal
    obtain ⟨hS₆, hbranch⟩ := hS.of_mergeUnifier (Subst.mergeUnifier_spec hs₅ hm₁).1 hm₂
    obtain ⟨hS₅, hcond⟩ := hS₆.of_mergeUnifier hs₅ hm₁
    obtain ⟨hS₄, hS₃⟩ := hS₅.of_compose hs₄ hc₂
    obtain ⟨hS₁, hS₂⟩ := hS₄.of_compose hc.subst.resolved hc₁
    rw [hS₅.apply] at hcond
    rw [hS₆.apply, hS₆.apply] at hbranch
    have hΓ₁ := hΓ.applySubst hS₁ (henv.noCapture hc.subst.mentions)
    rw [hS.apply]
    refine .ite ?_ (Expr.infer_hasType t henv₁ h₂ hS₂ hΓ₁) ?_
    · have hcT := Expr.infer_hasType c henv h₁ hS₁ hΓ
      rwa [hcond] at hcT
    · have heT := Expr.infer_hasType e (henv₁.applySubst_of_scoped ht.le ht.subst.mentions) h₃ hS₃
        (hΓ₁.applySubst hS₂ (henv₁.noCapture ht.subst.mentions))
      rwa [← hbranch] at heT
  | .matchOn e [], order, env, n, m, s, t, _, h, S, Γ', _, _ => by
    rw [Expr.infer_matchOn_nil_run] at h
    cases h
  | .matchOn e (arm :: arms), order, env, n, m, s, t, henv, h, S, Γ', hS, hΓ => by
    obtain ⟨s₁, ts, n₁, h₁, harms, rfl⟩ := Expr.infer_matchOn_run_iff.1 h
    have hs := Expr.infer_scoped e henv h₁
    -- the arms, at the scrutinee's type and the result variable drawn after it
    obtain ⟨hS₁, harmsT⟩ := Expr.inferArms_hasType (arm :: arms) henv
      (Nat.le_trans hs.le (Nat.le_succ n₁)) (hs.subst.mono (Nat.le_succ n₁))
      (fun w hw => (hs.ty w hw).mono (Nat.le_succ n₁)) (TypeEnv.Scoped.var_drawn hs.le) harms
      hS hΓ
    rw [hS.apply]
    exact .matchOn (List.cons_ne_nil _ _) (Expr.infer_hasType e henv h₁ hS₁ hΓ) harmsT
  | .letIn kind x e₁ e₂, order, env, n, m, s, t, henv, h, S, Γ', hS, hΓ => by
    obtain ⟨s₁, env₁, n₁, s₂, tb, h₁, h₂, hc, rfl⟩ := Expr.infer_letIn_run_iff.1 h
    obtain ⟨-, hs₁, henv₁, -⟩ :=
      inferBinding_scoped (fun h hr => Expr.infer_scoped e₁ h hr) henv h₁
    obtain ⟨hS₁, hS₂⟩ := hS.of_compose hs₁.resolved hc
    -- the binding gives a reading of the body's environment in which the body types the `let`
    obtain ⟨Γ₁', hΓ₁, hlet⟩ :=
      inferBinding_hasType (fun h hr => Expr.infer_hasType e₁ h hr) henv h₁ hS₁ hΓ
    rw [hS.apply]
    exact hlet e₂ _ (Expr.infer_hasType e₂ henv₁ h₂ hS₂ hΓ₁)
  | .lam p body, order, env, n, m, s, t, henv, h, S, Γ', hS, hΓ => by
    obtain ⟨penv, tp, n₁, tb, h₁, h₂, rfl⟩ := Expr.infer_lam_run_iff.1 h
    obtain ⟨Δ, hpat, rfl, hn₁, -, hΔ⟩ := Pattern.infer_spec p henv.vars_lt h₁
    rw [hS.apply]
    exact .lam (PatType.substWith S hpat)
      (Expr.infer_hasType body (henv.bindAll hn₁ hΔ) h₂ hS (hΓ.bindAll Δ))
  | .tuple items, order, env, n, m, s, t, henv, h, S, Γ', hS, hΓ => by
    obtain ⟨ts, h₁, rfl⟩ := Expr.infer_tuple_run_iff.1 h
    obtain ⟨-, hitems⟩ :=
      Expr.inferItems_hasType items henv (Nat.le_refl n) SubstScoped.empty h₁ hS hΓ
    rw [← Subst.apply_tuple, hS.apply]
    simp only [Ty.substWith, Ty.substWithList_eq_map]
    exact .tuple hitems
  | .cons hd tl, order, env, n, m, s, t, henv, h, S, Γ', hS, hΓ => by
    obtain ⟨s₁, th, n₁, s₂, tt, h₁, h₂, hm, rfl⟩ := Expr.infer_cons_run_iff.1 h
    obtain ⟨hn₁, hs₁, -⟩ := inferComponent_scoped (fun h hr => Expr.infer_scoped hd h hr)
      henv (Nat.le_refl n) SubstScoped.empty h₁
    obtain ⟨-, hs₂, -⟩ := inferComponent_scoped (fun h hr => Expr.infer_scoped tl h hr)
      henv hn₁ hs₁ h₂
    -- `S` makes the tail's type the list of the head's
    obtain ⟨hS₂, heq⟩ := hS.of_mergeUnifier hs₂.resolved hm
    simp only [Ty.substWith, hS₂.apply] at heq
    obtain ⟨hS₁, htlT⟩ := inferComponent_hasType (fun h hr => Expr.infer_hasType tl h hr)
      henv hn₁ hs₁ h₂ hS₂ hΓ
    obtain ⟨-, hhdT⟩ := inferComponent_hasType (fun h hr => Expr.infer_hasType hd h hr)
      henv (Nat.le_refl n) SubstScoped.empty h₁ hS₁ hΓ
    rw [hS.apply, hS₂.apply, ← heq]
    rw [← heq] at htlT
    exact .cons hhdT htlT
  | .app f a, order, env, n, m, s, t, henv, h, S, Γ', hS, hΓ => by
    obtain ⟨s₁, tf, n₁, s₂, ta, n₂, s₃, h₁, h₂, hc, hm, rfl, rfl⟩ := Expr.infer_app_run_iff.1 h
    have hf := Expr.infer_scoped f henv h₁
    -- `S` makes the function's type an arrow from the argument's type to the result variable
    obtain ⟨hS₃, heq⟩ :=
      hS.of_mergeUnifier (Subst.Resolved.compose hf.subst.resolved hc) hm
    obtain ⟨hS₁, hS₂⟩ := hS₃.of_compose hf.subst.resolved hc
    simp only [Ty.substWith, hS₃.apply] at heq
    have hfT := Expr.infer_hasType f henv h₁ hS₁ hΓ
    rw [heq] at hfT
    rw [hS.apply]
    exact .app hfT (Expr.infer_hasType a (henv.applySubst_of_scoped hf.le hf.subst.mentions) h₂
      hS₂ (hΓ.applySubst hS₁ (henv.noCapture hf.subst.mentions)))
  | .ctor x _, order, env, n, m, s, t, _, h, S, Γ', _, _ => by
    rw [Expr.infer_ctor_run] at h
    cases h
  | .variant tag _, order, env, n, m, s, t, _, h, S, Γ', _, _ => by
    rw [Expr.infer_variant_run] at h
    cases h

/-- The arms of a `match`, typed after a scoped run from `n₀` to `n`, are sound under every
refinement `S` of their substitution, which also absorbs the one before them. -/
theorem Expr.inferArms_hasType : ∀ (arms : List (Pattern × Expr)) {order : ComponentOrder}
    {env : TypeEnv} {ts r : Ty} {s₀ : Subst} {n₀ n m : Nat} {s : Subst},
    env.Fresh n₀ → n₀ ≤ n → SubstScoped env n₀ n s₀ → (∀ w ∈ ts.vars, env.Scoped n₀ n w) →
    (∀ w ∈ r.vars, env.Scoped n₀ n w) →
    (Expr.inferArms order env ts r s₀ arms).run n = (.ok s, m) →
    ∀ {S : Nat → Ty} {Γ' : TypeEnv}, AbsorbsSubst S s → EnvRead S env Γ' →
      AbsorbsSubst S s₀ ∧ ArmsHaveType Γ' (ts.substWith S) arms (r.substWith S)
  | [], order, env, ts, r, s₀, n₀, n, m, s, _, _, _, _, _, h, S, Γ', hS, _ => by
    obtain ⟨rfl, -⟩ := Expr.inferArms_nil_run_iff.1 h
    exact ⟨hS, .nil⟩
  | (p, body) :: rest, order, env, ts, r, s₀, n₀, n, m, s, henv, hn, hs₀, hts, hr, h, S, Γ',
      hS, hΓ => by
    obtain ⟨penv, tp, n₁, s₁, s₂, tb, n₂, s₃, s₄, h₁, hm₁, h₂, hc, hm₂, hrest⟩ :=
      Expr.inferArms_cons_run_iff.1 h
    obtain ⟨Δ, hpat, rfl, hnc, henvB, hn₂, hs₄⟩ := inferArm_scoped henv hn hs₀ hts hr h₁ hm₁
      (fun hf => Expr.infer_scoped body hf h₂) hc hm₂
    obtain ⟨hS₄, hrestT⟩ := Expr.inferArms_hasType rest henv (Nat.le_trans hn hn₂) hs₄
      (fun w hw => (hts w hw).mono hn₂) (fun w hw => (hr w hw).mono hn₂) hrest hS hΓ
    -- `S` makes the pattern's type the scrutinee's and the body's type the result's
    have hs₁ := (Subst.mergeUnifier_spec hs₀.resolved hm₁).1
    obtain ⟨hS₃, hbody⟩ := hS₄.of_mergeUnifier (Subst.Resolved.compose hs₁ hc) hm₂
    obtain ⟨hS₁, hS₂⟩ := hS₃.of_compose hs₁ hc
    obtain ⟨hS₀, hpt⟩ := hS₁.of_mergeUnifier hs₀.resolved hm₁
    rw [hS₀.apply, hS₀.apply] at hpt
    rw [hS₃.apply, hS₃.apply] at hbody
    have hΓP := (hΓ.applySubst hS₀ (henv.noCapture hs₀.mentions)).bindAll Δ
    have hbodyT := Expr.infer_hasType body henvB h₂ hS₂ (hΓP.applySubst hS₁ hnc)
    rw [← hbody] at hbodyT
    have hpat' := PatType.substWith S hpat
    rw [← hpt] at hpat'
    exact ⟨hS₀, .cons hpat' hbodyT hrestT⟩

/-- The components of a tuple, typed after a scoped run from `n₀` to `n`, are sound under every
refinement `S` of their substitution, which also absorbs the one before them. -/
theorem Expr.inferItems_hasType : ∀ (items : List Expr) {order : ComponentOrder}
    {env : TypeEnv} {s₀ : Subst} {n₀ n m : Nat} {s : Subst} {ts : List Ty},
    env.Fresh n₀ → n₀ ≤ n → SubstScoped env n₀ n s₀ →
    (Expr.inferItems order env s₀ items).run n = (.ok (s, ts), m) →
    ∀ {S : Nat → Ty} {Γ' : TypeEnv}, AbsorbsSubst S s → EnvRead S env Γ' →
      AbsorbsSubst S s₀ ∧ ItemsHaveTypes Γ' items (ts.map (·.substWith S))
  | [], order, env, s₀, n₀, n, m, s, ts, _, _, _, h, S, Γ', hS, _ => by
    obtain ⟨rfl, rfl, -⟩ := Expr.inferItems_nil_run_iff.1 h
    exact ⟨hS, .nil⟩
  | e :: es, order, env, s₀, n₀, n, m, s, ts, henv, hn, hs₀, h, S, Γ', hS, hΓ => by
    obtain ⟨s₁, t, n₁, ts', h₁, h₂, rfl⟩ := Expr.inferItems_cons_run_iff.1 h
    obtain ⟨hn₁, hs₁, -⟩ :=
      inferComponent_scoped (fun h hr => Expr.infer_scoped e h hr) henv hn hs₀ h₁
    obtain ⟨hS₁, hesT⟩ :=
      Expr.inferItems_hasType es henv (Nat.le_trans hn hn₁) hs₁ h₂ hS hΓ
    obtain ⟨hS₀, heT⟩ :=
      inferComponent_hasType (fun h hr => Expr.infer_hasType e h hr) henv hn hs₀ h₁ hS₁ hΓ
    exact ⟨hS₀, .cons heT hesT⟩

end

/-- **Soundness of Algorithm W.** From a counter fresh for the environment, the type that
inference gives an expression is derivable by the typing rules, in the environment under the
substitution that inference gives. -/
theorem Expr.infer_sound {order : ComponentOrder} {env : TypeEnv} {e : Expr} {n m : Nat}
    {s : Subst} {t : Ty} (henv : env.Fresh n)
    (h : (Expr.infer order env e).run n = (.ok (s, t), m)) : HasType (env.applySubst s) e t := by
  have hsc := Expr.infer_scoped e henv h
  -- the environment under `s` is its reading under `s`, and `s` leaves `t` as it is
  have hT := Expr.infer_hasType e henv h hsc.subst.resolved.absorbs
    (envRead_applySubst (henv.noCapture hsc.subst.mentions))
  rwa [← Subst.apply_eq_substWith, hsc.apply_eq] at hT

/-- The identity bound by `let` and used at `int` and at `bool`: inference types the pair, and
the typing is derivable. -/
theorem Expr.infer_sound_let_identity :
    (Expr.infer .sequential TypeEnv.empty (.letIn .plain "id" (.lam (.var "x") (.var "x"))
      (.tuple [.app (.var "id") (.lit (.int 1)), .app (.var "id") (.lit (.bool true))]))).run 0 =
      (.ok (⟨[(1, .int), (2, .int), (3, .bool), (4, .bool)]⟩, .tuple [.int, .bool]), 5) ∧
    HasType (TypeEnv.empty.applySubst ⟨[(1, .int), (2, .int), (3, .bool), (4, .bool)]⟩)
      (.letIn .plain "id" (.lam (.var "x") (.var "x"))
        (.tuple [.app (.var "id") (.lit (.int 1)), .app (.var "id") (.lit (.bool true))]))
      (.tuple [.int, .bool]) :=
  have h : (Expr.infer .sequential TypeEnv.empty (.letIn .plain "id" (.lam (.var "x") (.var "x"))
      (.tuple [.app (.var "id") (.lit (.int 1)), .app (.var "id") (.lit (.bool true))]))).run 0 =
      (.ok (⟨[(1, .int), (2, .int), (3, .bool), (4, .bool)]⟩, .tuple [.int, .bool]), 5) := by
    cbv
  ⟨h, Expr.infer_sound (TypeEnv.Fresh.empty 0) h⟩

end HindleyMilner
