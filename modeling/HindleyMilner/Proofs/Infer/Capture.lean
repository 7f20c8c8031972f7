import Mathlib
import HindleyMilner.Proofs.Infer.Scoped
import HindleyMilner.Proofs.Subst.Idempotent
/-!
# No capture during inference

Applying a substitution to an environment does not rename the quantified variables of its
schemes (`TypeEnv.applySubst`): a substitution that sends a free variable of a scheme to a type
mentioning one of the scheme's quantified variables captures it (`TypeEnv.NoCapture`). Inference
applies substitutions to environments at many points of a run, and this module shows that none of
those applications captures, as long as the run starts from a counter fresh for its environment.

The applications a run makes are recorded by relations that follow the recursion of inference,
one rule per point where the code applies a substitution to an environment (the rules named
`call`) and one per sub-run whose own applications are the run's as well:

* `Pattern.Applies`: typing `h :: t` applies the unifier of the two parts to the environment
  both have extended;
* `Expr.ThreadApplies`: operands, the three parts of `if` and the two of an application are
  typed one after the other, each in the environment the previous one left under its
  substitution;
* `Expr.ItemsApply`: the components of a tuple or of `::` are typed, in the sequential order, in
  the environment under the substitution of the components before them;
* `Expr.ArmsApply`: each arm of a `match` applies the substitution so far to the environment of
  the `match`, and the substitution after its pattern to the pattern's environment;
* `Expr.Applies`: a `let` applies the value's substitution to the environment the value was
  typed in.

The relations record which applications a run makes, with the sub-runs' results read from
`Expr.infer` and `Pattern.infer` themselves; they leave out the order in which they are made.

Every application so recorded captures nothing (`Expr.Applies.noCapture`). The reason is the
invariant of `Expr.infer_scoped`: each sub-run starts from a counter fresh for its environment,
and each substitution applied mentions only variables free in the environment or drawn during
the run, none of which is quantified anywhere in it. Together with what a run gives, this is the
freshness invariant of a run (`Expr.infer_fresh_run`).
-/

namespace HindleyMilner

mutual

/-- `Pattern.Applies env p n E S`: typing the pattern `p` in `env` from the counter `n` applies
`S` to the environment `E`. Only `::` does so itself, with the unifier of its two parts. -/
inductive Pattern.Applies : TypeEnv → Pattern → Nat → TypeEnv → Subst → Prop
  | consHead {env E : TypeEnv} {h tl : Pattern} {n : Nat} {S : Subst} :
      Pattern.Applies env h n E S → Pattern.Applies env (.cons h tl) n E S
  | consTail {env env₁ E : TypeEnv} {h tl : Pattern} {th : Ty} {n n₁ : Nat} {S : Subst} :
      (h.infer env).run n = (.ok (env₁, th), n₁) → Pattern.Applies env₁ tl n₁ E S →
      Pattern.Applies env (.cons h tl) n E S
  | call {env env₁ env₂ : TypeEnv} {h tl : Pattern} {th tt : Ty} {n n₁ n₂ : Nat} {u : Subst} :
      (h.infer env).run n = (.ok (env₁, th), n₁) → (tl.infer env₁).run n₁ = (.ok (env₂, tt), n₂) →
      unify (.list th) tt = .ok u → Pattern.Applies env (.cons h tl) n env₂ u
  | tuple {env E : TypeEnv} {items : List Pattern} {n : Nat} {S : Subst} :
      Pattern.ListApplies env items n E S → Pattern.Applies env (.tuple items) n E S

/-- `Pattern.ListApplies env ps n E S`: typing the patterns `ps` left to right, each in the
environment the ones before it extended, applies `S` to `E`. -/
inductive Pattern.ListApplies : TypeEnv → List Pattern → Nat → TypeEnv → Subst → Prop
  | head {env E : TypeEnv} {p : Pattern} {ps : List Pattern} {n : Nat} {S : Subst} :
      Pattern.Applies env p n E S → Pattern.ListApplies env (p :: ps) n E S
  | tail {env env₁ E : TypeEnv} {p : Pattern} {ps : List Pattern} {t : Ty} {n n₁ : Nat}
      {S : Subst} :
      (p.infer env).run n = (.ok (env₁, t), n₁) → Pattern.ListApplies env₁ ps n₁ E S →
      Pattern.ListApplies env (p :: ps) n E S

end

mutual

/-- `Expr.Applies order env e n E S`: typing `e` in `env` from the counter `n` applies `S` to
the environment `E`, either at a point of its own or inside the typing of a part. -/
inductive Expr.Applies (order : ComponentOrder) : TypeEnv → Expr → Nat → TypeEnv → Subst → Prop
  | binop {env E : TypeEnv} {op : BinOp} {l r : Expr} {n : Nat} {S : Subst} :
      Expr.ThreadApplies order env [l, r] n E S → Expr.Applies order env (.binop op l r) n E S
  | ite {env E : TypeEnv} {c t e : Expr} {n : Nat} {S : Subst} :
      Expr.ThreadApplies order env [c, t, e] n E S → Expr.Applies order env (.ite c t e) n E S
  | app {env E : TypeEnv} {f a : Expr} {n : Nat} {S : Subst} :
      Expr.ThreadApplies order env [f, a] n E S → Expr.Applies order env (.app f a) n E S
  | scrutinee {env E : TypeEnv} {scrut : Expr} {arms : List (Pattern × Expr)} {n : Nat}
      {S : Subst} :
      arms ≠ [] → Expr.Applies order env scrut n E S →
      Expr.Applies order env (.matchOn scrut arms) n E S
  | arms {env E : TypeEnv} {scrut : Expr} {arms : List (Pattern × Expr)} {ts : Ty} {n n₁ : Nat}
      {s S : Subst} :
      (Expr.infer order env scrut).run n = (.ok (s, ts), n₁) →
      Expr.ArmsApply order env ts (.var n₁) s arms (n₁ + 1) E S →
      Expr.Applies order env (.matchOn scrut arms) n E S
  | letValue {env E : TypeEnv} {x : String} {value body : Expr} {n : Nat} {S : Subst} :
      Expr.Applies order env value n E S → Expr.Applies order env (.letIn .plain x value body) n E S
  | letCall {env : TypeEnv} {x : String} {value body : Expr} {t : Ty} {n n₁ : Nat} {s : Subst} :
      (Expr.infer order env value).run n = (.ok (s, t), n₁) →
      Expr.Applies order env (.letIn .plain x value body) n env s
  | letRecValue {env E : TypeEnv} {x : String} {value body : Expr} {n : Nat} {S : Subst} :
      Expr.Applies order (env.extend x (.mono (.var n))) value (n + 1) E S →
      Expr.Applies order env (.letIn .recursive x value body) n E S
  | letRecCall {env : TypeEnv} {x : String} {value body : Expr} {t : Ty} {n n₁ : Nat}
      {s₁ s₂ s : Subst} :
      (Expr.infer order (env.extend x (.mono (.var n))) value).run (n + 1) = (.ok (s₁, t), n₁) →
      unify (s₁.apply (.var n)) t = .ok s₂ → s₁.compose s₂ = .ok s →
      Expr.Applies order env (.letIn .recursive x value body) n (env.extend x (.mono (.var n))) s
  | letBody {env env₁ E : TypeEnv} {kind : BindingKind} {x : String} {value body : Expr}
      {n n₁ : Nat} {s S : Subst} :
      (inferBinding env kind x (Expr.infer order · value)).run n = (.ok (s, env₁), n₁) →
      Expr.Applies order env₁ body n₁ E S → Expr.Applies order env (.letIn kind x value body) n E S
  | lamPattern {env E : TypeEnv} {p : Pattern} {body : Expr} {n : Nat} {S : Subst} :
      Pattern.Applies env p n E S → Expr.Applies order env (.lam p body) n E S
  | lamBody {env penv E : TypeEnv} {p : Pattern} {body : Expr} {tp : Ty} {n n₁ : Nat}
      {S : Subst} :
      (p.infer env).run n = (.ok (penv, tp), n₁) → Expr.Applies order penv body n₁ E S →
      Expr.Applies order env (.lam p body) n E S
  | tuple {env E : TypeEnv} {items : List Expr} {n : Nat} {S : Subst} :
      Expr.ItemsApply order env .empty items n E S → Expr.Applies order env (.tuple items) n E S
  | cons {env E : TypeEnv} {h t : Expr} {n : Nat} {S : Subst} :
      Expr.ItemsApply order env .empty [h, t] n E S → Expr.Applies order env (.cons h t) n E S

/-- `Expr.ThreadApplies order env es n E S`: typing `es` one after the other, each in the
environment before it under its substitution, applies `S` to `E`. -/
inductive Expr.ThreadApplies (order : ComponentOrder) :
    TypeEnv → List Expr → Nat → TypeEnv → Subst → Prop
  | head {env E : TypeEnv} {e : Expr} {es : List Expr} {n : Nat} {S : Subst} :
      Expr.Applies order env e n E S → Expr.ThreadApplies order env (e :: es) n E S
  | call {env : TypeEnv} {e e' : Expr} {es : List Expr} {t : Ty} {n n₁ : Nat} {s : Subst} :
      (Expr.infer order env e).run n = (.ok (s, t), n₁) →
      Expr.ThreadApplies order env (e :: e' :: es) n env s
  | tail {env E : TypeEnv} {e : Expr} {es : List Expr} {t : Ty} {n n₁ : Nat} {s S : Subst} :
      (Expr.infer order env e).run n = (.ok (s, t), n₁) →
      Expr.ThreadApplies order (env.applySubst s) es n₁ E S →
      Expr.ThreadApplies order env (e :: es) n E S

/-- `Expr.ItemsApply order env s items n E S`: typing the components `items` after components
whose substitution is `s` applies `S` to `E`. -/
inductive Expr.ItemsApply (order : ComponentOrder) :
    TypeEnv → Subst → List Expr → Nat → TypeEnv → Subst → Prop
  | call {env : TypeEnv} {s : Subst} {e : Expr} {es : List Expr} {n : Nat} :
      order = .sequential → Expr.ItemsApply order env s (e :: es) n env s
  | headSequential {env E : TypeEnv} {s S : Subst} {e : Expr} {es : List Expr} {n : Nat} :
      order = .sequential → Expr.Applies order (env.applySubst s) e n E S →
      Expr.ItemsApply order env s (e :: es) n E S
  | headIndependent {env E : TypeEnv} {s S : Subst} {e : Expr} {es : List Expr} {n : Nat} :
      order = .independent → Expr.Applies order env e n E S →
      Expr.ItemsApply order env s (e :: es) n E S
  | tail {env E : TypeEnv} {s s' S : Subst} {e : Expr} {es : List Expr} {t : Ty} {n n₁ : Nat} :
      (inferComponent order env s (Expr.infer order · e)).run n = (.ok (s', t), n₁) →
      Expr.ItemsApply order env s' es n₁ E S → Expr.ItemsApply order env s (e :: es) n E S

/-- `Expr.ArmsApply order env ts r s arms n E S`: typing the arms `arms` of a `match` on a
scrutinee of type `ts` with result type `r`, after a substitution `s`, applies `S` to `E`. -/
inductive Expr.ArmsApply (order : ComponentOrder) :
    TypeEnv → Ty → Ty → Subst → List (Pattern × Expr) → Nat → TypeEnv → Subst → Prop
  | call {env : TypeEnv} {ts r : Ty} {s : Subst} {p : Pattern} {body : Expr}
      {rest : List (Pattern × Expr)} {n : Nat} :
      Expr.ArmsApply order env ts r s ((p, body) :: rest) n env s
  | pattern {env E : TypeEnv} {ts r : Ty} {s S : Subst} {p : Pattern} {body : Expr}
      {rest : List (Pattern × Expr)} {n : Nat} :
      Pattern.Applies (env.applySubst s) p n E S →
      Expr.ArmsApply order env ts r s ((p, body) :: rest) n E S
  | bodyCall {env penv : TypeEnv} {ts r tp : Ty} {s s₁ : Subst} {p : Pattern} {body : Expr}
      {rest : List (Pattern × Expr)} {n n₁ : Nat} :
      (p.infer (env.applySubst s)).run n = (.ok (penv, tp), n₁) →
      s.mergeUnifier (s.apply ts) (s.apply tp) = .ok s₁ →
      Expr.ArmsApply order env ts r s ((p, body) :: rest) n penv s₁
  | body {env penv E : TypeEnv} {ts r tp : Ty} {s s₁ S : Subst} {p : Pattern} {body : Expr}
      {rest : List (Pattern × Expr)} {n n₁ : Nat} :
      (p.infer (env.applySubst s)).run n = (.ok (penv, tp), n₁) →
      s.mergeUnifier (s.apply ts) (s.apply tp) = .ok s₁ →
      Expr.Applies order (penv.applySubst s₁) body n₁ E S →
      Expr.ArmsApply order env ts r s ((p, body) :: rest) n E S
  | tail {env E : TypeEnv} {ts r : Ty} {s s' S : Subst} {p : Pattern} {body : Expr}
      {rest : List (Pattern × Expr)} {n n₁ : Nat} :
      (Expr.inferArms order env ts r s [(p, body)]).run n = (.ok s', n₁) →
      Expr.ArmsApply order env ts r s' rest n₁ E S →
      Expr.ArmsApply order env ts r s ((p, body) :: rest) n E S

end

/-- Typing a pattern from a counter fresh for its environment leaves the counter fresh for the
environment the pattern extends: its bindings are monomorphic, at variables it drew. -/
theorem Pattern.infer_fresh {env penv : TypeEnv} {p : Pattern} {tp : Ty} {n n₁ : Nat}
    (henv : env.Fresh n) (h : (p.infer env).run n = (.ok (penv, tp), n₁)) : penv.Fresh n₁ := by
  obtain ⟨Δ, -, rfl, hn₁, -, hΔ⟩ := Pattern.infer_spec p henv.vars_lt h
  exact henv.bindAll hn₁ hΔ

mutual

/-- Typing a pattern from a counter fresh for its environment captures nothing. -/
theorem Pattern.Applies.noCapture {env : TypeEnv} {p : Pattern} {n : Nat} {E : TypeEnv}
    {S : Subst} : Pattern.Applies env p n E S → env.Fresh n → E.NoCapture S
  | .consHead h, henv => h.noCapture henv
  | .consTail h₁ h, henv => h.noCapture (Pattern.infer_fresh henv h₁)
  | .call h₁ h₂ hu, henv => by
    obtain ⟨Δ₁, -, rfl, hn₁, hth, hΔ₁⟩ := Pattern.infer_spec _ henv.vars_lt h₁
    obtain ⟨Δ₂, -, rfl, -, htt, -⟩ := Pattern.infer_spec _ (henv.bindAll hn₁ hΔ₁).vars_lt h₂
    -- the unifier mentions only variables drawn for the pattern, and the quantified variables
    -- of the extended environment are those of `env`, all below `n`
    refine TypeEnv.noCapture_of_not_quantifies (fun w hw hq => ?_)
    have hlt := henv.quantified_lt w
      (TypeEnv.quantifies_bindAll (TypeEnv.quantifies_bindAll hq))
    rcases mentions_unify hu hw with hw | hw
    · have := hth w (by simpa using hw)
      omega
    · have := htt w hw
      omega
  | .tuple h, henv => h.noCapture henv

/-- The list form of `Pattern.Applies.noCapture`. -/
theorem Pattern.ListApplies.noCapture {env : TypeEnv} {ps : List Pattern} {n : Nat}
    {E : TypeEnv} {S : Subst} : Pattern.ListApplies env ps n E S → env.Fresh n → E.NoCapture S
  | .head h, henv => h.noCapture henv
  | .tail h₁ h, henv => h.noCapture (Pattern.infer_fresh henv h₁)

end

section

variable {order : ComponentOrder}

mutual

/-- Typing an expression from a counter fresh for its environment captures nothing: every
substitution it applies to an environment mentions no quantified variable of it. -/
theorem Expr.Applies.noCapture {env : TypeEnv} {e : Expr} {n : Nat} {E : TypeEnv} {S : Subst} :
    Expr.Applies order env e n E S → env.Fresh n → E.NoCapture S
  | .binop h, henv => h.noCapture henv
  | .ite h, henv => h.noCapture henv
  | .app h, henv => h.noCapture henv
  | .scrutinee _ h, henv => h.noCapture henv
  | .arms h₁ h, henv => by
    -- the arms start after the scrutinee and the result variable drawn after it
    have hs := Expr.infer_scoped _ henv h₁
    exact h.noCapture henv (Nat.le_succ_of_le hs.le) (hs.subst.mono (Nat.le_succ _))
      (fun w hw => (hs.ty w hw).mono (Nat.le_succ _)) (TypeEnv.Scoped.var_drawn hs.le)
  | .letValue h, henv => h.noCapture henv
  | .letCall h₁, henv => henv.noCapture (Expr.infer_scoped _ henv h₁).subst.mentions
  | .letRecValue h, henv => h.noCapture (henv.extend_placeholder _)
  | .letRecCall h₁ hu hc, henv => by
    -- the substitution applied is the binding's own, which is scoped to the run
    obtain ⟨-, hs, -, -⟩ := inferBinding_scoped (fun hf hr => Expr.infer_scoped _ hf hr) henv
      (inferBinding_recursive_run_iff.2 ⟨_, _, _, h₁, hu, hc, rfl⟩)
    refine henv.noCapture_of_scoped (fun w hw => ?_) hs.mentions
    rcases TypeEnv.quantifies_extend hw with hw | hw
    · simp at hw
    · exact hw
  | .letBody h₁ h, henv =>
    h.noCapture (inferBinding_scoped (fun hf hr => Expr.infer_scoped _ hf hr) henv h₁).2.2.1
  | .lamPattern h, henv => h.noCapture henv
  | .lamBody h₁ h, henv => h.noCapture (Pattern.infer_fresh henv h₁)
  | .tuple h, henv => h.noCapture henv (Nat.le_refl _) SubstScoped.empty
  | .cons h, henv => h.noCapture henv (Nat.le_refl _) SubstScoped.empty

/-- Parts typed one after the other capture nothing: each starts from a counter fresh for the
environment the previous one left. -/
theorem Expr.ThreadApplies.noCapture {env : TypeEnv} {es : List Expr} {n : Nat} {E : TypeEnv}
    {S : Subst} : Expr.ThreadApplies order env es n E S → env.Fresh n → E.NoCapture S
  | .head h, henv => h.noCapture henv
  | .call h₁, henv => henv.noCapture (Expr.infer_scoped _ henv h₁).subst.mentions
  | .tail h₁ h, henv => by
    have hs := Expr.infer_scoped _ henv h₁
    exact h.noCapture (henv.applySubst_of_scoped hs.le hs.subst.mentions)

/-- Components typed after a substitution scoped to the run from `n₀` capture nothing. -/
theorem Expr.ItemsApply.noCapture {env : TypeEnv} {s : Subst} {items : List Expr} {n n₀ : Nat}
    {E : TypeEnv} {S : Subst} : Expr.ItemsApply order env s items n E S → env.Fresh n₀ →
      n₀ ≤ n → SubstScoped env n₀ n s → E.NoCapture S
  | .call _, henv, _, hs => henv.noCapture hs.mentions
  | .headSequential _ h, henv, hn, hs => h.noCapture (henv.applySubst_of_scoped hn hs.mentions)
  | .headIndependent _ h, henv, hn, _ => h.noCapture (henv.mono hn)
  | .tail h₁ h, henv, hn, hs => by
    obtain ⟨hn₁, hs₁, -⟩ :=
      inferComponent_scoped (fun hf hr => Expr.infer_scoped _ hf hr) henv hn hs h₁
    exact h.noCapture henv (Nat.le_trans hn hn₁) hs₁

/-- Arms typed after a substitution scoped to the run from `n₀` capture nothing. -/
theorem Expr.ArmsApply.noCapture {env : TypeEnv} {ts r : Ty} {s : Subst}
    {arms : List (Pattern × Expr)} {n n₀ : Nat} {E : TypeEnv} {S : Subst} :
    Expr.ArmsApply order env ts r s arms n E S → env.Fresh n₀ → n₀ ≤ n →
      SubstScoped env n₀ n s → (∀ w ∈ ts.vars, env.Scoped n₀ n w) →
      (∀ w ∈ r.vars, env.Scoped n₀ n w) → E.NoCapture S
  | .call, henv, _, hs, _, _ => henv.noCapture hs.mentions
  | .pattern h, henv, hn, hs, _, _ => h.noCapture (henv.applySubst_of_scoped hn hs.mentions)
  | .bodyCall h₁ hm, henv, hn, hs, hts, _ => by
    obtain ⟨-, -, -, -, -, hnc, -, -⟩ := inferArmPattern_scoped henv hn hs hts h₁ hm
    exact hnc
  | .body h₁ hm h, henv, hn, hs, hts, _ => by
    obtain ⟨-, -, -, -, -, -, henvB, -⟩ := inferArmPattern_scoped henv hn hs hts h₁ hm
    exact h.noCapture henvB
  | .tail h₁ h, henv, hn, hs, hts, hr => by
    obtain ⟨hn₁, hs₁⟩ := Expr.inferArms_scoped [_] henv hn hs hts hr h₁
    exact h.noCapture henv (Nat.le_trans hn hn₁) hs₁ (fun w hw => (hts w hw).mono hn₁)
      (fun w hw => (hr w hw).mono hn₁)

end

/-- The freshness invariant of a run of inference. From a counter `n₀` fresh for the environment
(names in ascending order, every variable below `n₀`, no quantified variable free), a successful
run ends at a counter `n₁ ≥ n₀` with an idempotent substitution that leaves the inferred type as
it is; every key of the substitution, every variable of its targets and every variable of the
type is free in the environment or drawn in `[n₀, n₁)`; and no application of a substitution to
an environment made during the run captures a quantified variable. -/
theorem Expr.infer_fresh_run {env : TypeEnv} {e : Expr} {n₀ n₁ : Nat} {s : Subst} {t : Ty}
    (henv : env.Fresh n₀) (h : (Expr.infer order env e).run n₀ = (.ok (s, t), n₁)) :
    n₀ ≤ n₁ ∧ s.Idempotent ∧ s.apply t = t ∧ (∀ w, s.Mentions w → env.Scoped n₀ n₁ w) ∧
      (∀ w ∈ t.vars, env.Scoped n₀ n₁ w) ∧
      ∀ E S, Expr.Applies order env e n₀ E S → E.NoCapture S := by
  have hs := Expr.infer_scoped e henv h
  exact ⟨hs.le, Subst.Canonical.toIdempotent ⟨hs.subst.sorted, hs.subst.resolved⟩, hs.apply_eq,
    hs.subst.mentions, hs.ty, fun _ _ hc => hc.noCapture henv⟩

/-- `f : ∀ 't1. 't0 -> 't1` applied to `1` and then used alone, from the counter `2`: the run
binds the free `'t0` of `f` to `int`, and applies that to the environment before the second
component, under the quantifier of `'t1`. -/
theorem Expr.infer_fresh_run_instance :
    TypeEnv.Fresh ⟨[("f", ⟨[1], .arrow (.var 0) (.var 1)⟩)]⟩ 2 ∧
      (Expr.infer .sequential ⟨[("f", ⟨[1], .arrow (.var 0) (.var 1)⟩)]⟩
        (.tuple [.app (.var "f") (.lit (.int 1)), .var "f"])).run 2 =
        (.ok (⟨[(0, .int), (2, .var 3)]⟩, .tuple [.var 3, .arrow .int (.var 4)]), 5) ∧
      2 ≤ 5 ∧ Subst.Idempotent ⟨[(0, .int), (2, .var 3)]⟩ ∧
      Subst.apply ⟨[(0, .int), (2, .var 3)]⟩ (.tuple [.var 3, .arrow .int (.var 4)]) =
        .tuple [.var 3, .arrow .int (.var 4)] ∧
      (∀ w, Subst.Mentions ⟨[(0, .int), (2, .var 3)]⟩ w →
        TypeEnv.Scoped ⟨[("f", ⟨[1], .arrow (.var 0) (.var 1)⟩)]⟩ 2 5 w) ∧
      (∀ w ∈ (Ty.tuple [.var 3, .arrow .int (.var 4)]).vars,
        TypeEnv.Scoped ⟨[("f", ⟨[1], .arrow (.var 0) (.var 1)⟩)]⟩ 2 5 w) ∧
      ∀ E S, Expr.Applies .sequential ⟨[("f", ⟨[1], .arrow (.var 0) (.var 1)⟩)]⟩
        (.tuple [.app (.var "f") (.lit (.int 1)), .var "f"]) 2 E S → E.NoCapture S :=
  have henv : TypeEnv.Fresh ⟨[("f", ⟨[1], .arrow (.var 0) (.var 1)⟩)]⟩ 2 := by
    refine ⟨List.pairwise_singleton _ _, by decide, ?_, ?_⟩
    · rintro w ⟨e, he, hw⟩
      simp only [List.mem_singleton] at he
      subst he
      simp only [List.mem_singleton] at hw
      omega
    · rintro w ⟨e, he, hw⟩
      simp only [List.mem_singleton] at he
      subst he
      simp only [List.mem_singleton] at hw
      subst hw
      decide
  have h : (Expr.infer .sequential ⟨[("f", ⟨[1], .arrow (.var 0) (.var 1)⟩)]⟩
      (.tuple [.app (.var "f") (.lit (.int 1)), .var "f"])).run 2 =
      (.ok (⟨[(0, .int), (2, .var 3)]⟩, .tuple [.var 3, .arrow .int (.var 4)]), 5) := by
    cbv
  ⟨henv, h, Expr.infer_fresh_run henv h⟩

/-- The run above applies the substitution of its first component to the environment before
typing the second. -/
example : Expr.Applies .sequential ⟨[("f", ⟨[1], .arrow (.var 0) (.var 1)⟩)]⟩
    (.tuple [.app (.var "f") (.lit (.int 1)), .var "f"]) 2
    ⟨[("f", ⟨[1], .arrow (.var 0) (.var 1)⟩)]⟩ ⟨[(0, .int), (2, .var 3)]⟩ :=
  have h : (inferComponent .sequential ⟨[("f", ⟨[1], .arrow (.var 0) (.var 1)⟩)]⟩ .empty
      (Expr.infer .sequential · (.app (.var "f") (.lit (.int 1))))).run 2 =
      (.ok (⟨[(0, .int), (2, .var 3)]⟩, .var 3), 4) := by
    cbv
  .tuple (.tail h (.call rfl))

end

end HindleyMilner
