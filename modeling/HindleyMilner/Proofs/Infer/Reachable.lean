import HindleyMilner.Proofs.Infer.Capture
import HindleyMilner.Infer.Program
/-!
# Inference builds only reachable substitutions

Every substitution that a run of inference gives is built from the empty substitution and
unifiers by composing (`Subst.Reachable`), whatever the environment and the counter
(`Expr.infer_reachable`); so are those after the arms of a `match` and the components of a tuple
(`Expr.inferArms_reachable`, `Expr.inferItems_reachable`). Every substitution that inference reads
a type through, composes into or restricts is therefore idempotent
(`Subst.Reachable.idempotent`), with no condition on the environment.

Typing a pattern applies only the unifiers of the parts of its `::` patterns
(`Pattern.Applies.reachable`). Typing a program computes, declaration by declaration, the
substitution of each expression and of each binding's value, and for a recursive binding the
unifier of the name's placeholder with the value's type and the composition of the two
(`Decl.Computes`, `Decl.ListComputes`); all of them are reachable
(`Decl.ListComputes.reachable`).
-/

namespace HindleyMilner

/-- Merging a unifier into a reachable substitution gives a reachable one. -/
theorem Subst.Reachable.mergeUnifier {s r : Subst} {a b : Ty} (hs : s.Reachable)
    (h : s.mergeUnifier a b = .ok r) : r.Reachable := by
  simp only [Subst.mergeUnifier] at h
  cases hu : HindleyMilner.unify a b with
  | error e =>
    rw [hu] at h
    cases h
  | ok u =>
    rw [hu] at h
    exact .compose hs (.unify hu) h

variable {order : ComponentOrder} {env : TypeEnv} {s r : Subst} {t : Ty} {n m : Nat}

/-- One component of a tuple or of `::` merges a reachable substitution into a reachable one. -/
theorem inferComponent_reachable {e : Expr}
    (ih : ∀ {env' : TypeEnv} {n m : Nat} {s' : Subst} {t' : Ty},
      (Expr.infer order env' e).run n = (.ok (s', t'), m) → s'.Reachable)
    (hs : s.Reachable)
    (h : (inferComponent order env s (Expr.infer order · e)).run n = (.ok (r, t), m)) :
    r.Reachable := by
  obtain ⟨s', hrun, hr⟩ := inferComponent_run_iff.1 h
  exact .compose hs (ih hrun) hr

/-- The binding of a `let` gives a reachable substitution: the value's, composed for a recursive
binding with the unifier of the placeholder and the value's type. -/
theorem inferBinding_reachable {kind : BindingKind} {x : String} {value : Expr} {env₁ : TypeEnv}
    (ih : ∀ {env' : TypeEnv} {n m : Nat} {s' : Subst} {t' : Ty},
      (Expr.infer order env' value).run n = (.ok (s', t'), m) → s'.Reachable)
    (h : (inferBinding env kind x (Expr.infer order · value)).run n = (.ok (s, env₁), m)) :
    s.Reachable := by
  cases kind with
  | plain =>
    obtain ⟨t, hrun, -⟩ := inferBinding_plain_run_iff.1 h
    exact ih hrun
  | recursive =>
    obtain ⟨s₁, t, s₂, hrun, hu, hc, -⟩ := inferBinding_recursive_run_iff.1 h
    exact .compose (ih hrun) (.unify hu) hc

mutual

/-- Every substitution a run of inference gives is reachable. -/
theorem Expr.infer_reachable : ∀ (e : Expr) {order : ComponentOrder} {env : TypeEnv} {n m : Nat}
    {s : Subst} {t : Ty}, (Expr.infer order env e).run n = (.ok (s, t), m) → s.Reachable
  | .lit c, order, env, n, m, s, t, h => by
    obtain ⟨-, rfl⟩ := Expr.infer_lit_run_iff.1 h
    exact .empty
  | .var x, order, env, n, m, s, t, h => by
    obtain ⟨-, -, -, rfl⟩ := Expr.infer_var_run_iff.1 h
    exact .empty
  | .binop op l r, order, env, n, m, s, t, h => by
    obtain ⟨s₁, tl, n₁, s₂, tr, n₂, el, er, res, s₃, s₄, h₁, h₂, -, hc, hm₁, hm₂, -⟩ :=
      Expr.infer_binop_run_iff.1 h
    exact ((Subst.Reachable.compose (Expr.infer_reachable l h₁) (Expr.infer_reachable r h₂)
      hc).mergeUnifier hm₁).mergeUnifier hm₂
  | .ite c t e, order, env, n, m, s, ty, h => by
    obtain ⟨s₁, tc, n₁, s₂, tt, n₂, s₃, te, s₄, s₅, s₆, h₁, h₂, h₃, hc₁, hc₂, hm₁, hm₂, -⟩ :=
      Expr.infer_ite_run_iff.1 h
    have hs₄ := Subst.Reachable.compose (Expr.infer_reachable c h₁) (Expr.infer_reachable t h₂) hc₁
    exact ((Subst.Reachable.compose hs₄ (Expr.infer_reachable e h₃) hc₂).mergeUnifier
      hm₁).mergeUnifier hm₂
  | .matchOn e [], order, env, n, m, s, t, h => by
    rw [Expr.infer_matchOn_nil_run] at h
    cases h
  | .matchOn e (arm :: arms), order, env, n, m, s, t, h => by
    obtain ⟨s₁, ts, n₁, h₁, harms, -⟩ := Expr.infer_matchOn_run_iff.1 h
    exact Expr.inferArms_reachable (arm :: arms) (Expr.infer_reachable e h₁) harms
  | .letIn kind x e₁ e₂, order, env, n, m, s, t, h => by
    obtain ⟨s₁, env₁, n₁, s₂, tb, h₁, h₂, hc, -⟩ := Expr.infer_letIn_run_iff.1 h
    exact .compose (inferBinding_reachable (fun hr => Expr.infer_reachable e₁ hr) h₁)
      (Expr.infer_reachable e₂ h₂) hc
  | .lam p body, order, env, n, m, s, t, h => by
    obtain ⟨penv, tp, n₁, tb, -, h₂, -⟩ := Expr.infer_lam_run_iff.1 h
    exact Expr.infer_reachable body h₂
  | .tuple items, order, env, n, m, s, t, h => by
    obtain ⟨ts, h₁, -⟩ := Expr.infer_tuple_run_iff.1 h
    exact Expr.inferItems_reachable items .empty h₁
  | .cons hd tl, order, env, n, m, s, t, h => by
    obtain ⟨s₁, th, n₁, s₂, tt, h₁, h₂, hm, -⟩ := Expr.infer_cons_run_iff.1 h
    have hs₁ := inferComponent_reachable (fun hr => Expr.infer_reachable hd hr) .empty h₁
    exact (inferComponent_reachable (fun hr => Expr.infer_reachable tl hr) hs₁ h₂).mergeUnifier hm
  | .app f a, order, env, n, m, s, t, h => by
    obtain ⟨s₁, tf, n₁, s₂, ta, n₂, s₃, h₁, h₂, hc, hm, -⟩ := Expr.infer_app_run_iff.1 h
    exact (Subst.Reachable.compose (Expr.infer_reachable f h₁) (Expr.infer_reachable a h₂)
      hc).mergeUnifier hm
  | .ctor x _, order, env, n, m, s, t, h => by
    rw [Expr.infer_ctor_run] at h
    cases h
  | .variant tag _, order, env, n, m, s, t, h => by
    rw [Expr.infer_variant_run] at h
    cases h

/-- The arms of a `match`, typed after a reachable substitution, extend it to a reachable one. -/
theorem Expr.inferArms_reachable : ∀ (arms : List (Pattern × Expr)) {order : ComponentOrder}
    {env : TypeEnv} {ts r : Ty} {s₀ : Subst} {n m : Nat} {s : Subst}, s₀.Reachable →
    (Expr.inferArms order env ts r s₀ arms).run n = (.ok s, m) → s.Reachable
  | [], order, env, ts, r, s₀, n, m, s, hs₀, h => by
    obtain ⟨rfl, -⟩ := Expr.inferArms_nil_run_iff.1 h
    exact hs₀
  | (p, body) :: rest, order, env, ts, r, s₀, n, m, s, hs₀, h => by
    obtain ⟨penv, tp, n₁, s₁, s₂, tb, n₂, s₃, s₄, -, hm₁, h₂, hc, hm₂, hrest⟩ :=
      Expr.inferArms_cons_run_iff.1 h
    have hs₃ := Subst.Reachable.compose (hs₀.mergeUnifier hm₁) (Expr.infer_reachable body h₂) hc
    exact Expr.inferArms_reachable rest (hs₃.mergeUnifier hm₂) hrest

/-- The components of a tuple, typed after a reachable substitution, extend it to a reachable
one. -/
theorem Expr.inferItems_reachable : ∀ (items : List Expr) {order : ComponentOrder}
    {env : TypeEnv} {s₀ : Subst} {n m : Nat} {s : Subst} {ts : List Ty}, s₀.Reachable →
    (Expr.inferItems order env s₀ items).run n = (.ok (s, ts), m) → s.Reachable
  | [], order, env, s₀, n, m, s, ts, hs₀, h => by
    obtain ⟨rfl, -, -⟩ := Expr.inferItems_nil_run_iff.1 h
    exact hs₀
  | e :: es, order, env, s₀, n, m, s, ts, hs₀, h => by
    obtain ⟨s₁, t, n₁, ts', h₁, h₂, -⟩ := Expr.inferItems_cons_run_iff.1 h
    exact Expr.inferItems_reachable es
      (inferComponent_reachable (fun hr => Expr.infer_reachable e hr) hs₀ h₁) h₂

end

/-! ## Patterns and programs -/

mutual

/-- Every substitution a run of pattern inference applies is reachable: it is the unifier of the
two parts of a `::`. -/
theorem Pattern.Applies.reachable {env : TypeEnv} {p : Pattern} {n : Nat} {E : TypeEnv}
    {S : Subst} : Pattern.Applies env p n E S → S.Reachable
  | .consHead h => h.reachable
  | .consTail _ h => h.reachable
  | .call _ _ hu => .unify hu
  | .tuple h => h.reachable

/-- The list form of `Pattern.Applies.reachable`. -/
theorem Pattern.ListApplies.reachable {env : TypeEnv} {ps : List Pattern} {n : Nat}
    {E : TypeEnv} {S : Subst} : Pattern.ListApplies env ps n E S → S.Reachable
  | .head h => h.reachable
  | .tail _ h => h.reachable

end

/-- `Decl.Computes order env d n s`: typing the declaration `d` in `env` from the counter `n`
computes the substitution `s`. An expression and the value of a plain binding give theirs; the
value of a recursive binding gives its own, typed with the name at the placeholder drawn for it,
then the unifier of the placeholder, read through it, with the value's type, and then the
composition of the two, which is the binding's. -/
inductive Decl.Computes (order : ComponentOrder) : TypeEnv → Decl → Nat → Subst → Prop
  | expr {env : TypeEnv} {e : Expr} {n m : Nat} {s : Subst} {t : Ty} :
      (Expr.infer order env e).run n = (.ok (s, t), m) → Decl.Computes order env (.expr e) n s
  | plain {env : TypeEnv} {x : String} {rhs : Expr} {n m : Nat} {s : Subst} {t : Ty} :
      (Expr.infer order env rhs).run n = (.ok (s, t), m) →
      Decl.Computes order env (.value .plain x rhs) n s
  | recursive {env : TypeEnv} {x : String} {rhs : Expr} {n m : Nat} {s : Subst} {t : Ty} :
      (Expr.infer order (env.extend x (.mono (.var n))) rhs).run (n + 1) = (.ok (s, t), m) →
      Decl.Computes order env (.value .recursive x rhs) n s
  | unifier {env : TypeEnv} {x : String} {rhs : Expr} {n m : Nat} {s u : Subst} {t : Ty} :
      (Expr.infer order (env.extend x (.mono (.var n))) rhs).run (n + 1) = (.ok (s, t), m) →
      unify (s.apply (.var n)) t = .ok u → Decl.Computes order env (.value .recursive x rhs) n u
  | compose {env : TypeEnv} {x : String} {rhs : Expr} {n m : Nat} {s u r : Subst} {t : Ty} :
      (Expr.infer order (env.extend x (.mono (.var n))) rhs).run (n + 1) = (.ok (s, t), m) →
      unify (s.apply (.var n)) t = .ok u → s.compose u = .ok r →
      Decl.Computes order env (.value .recursive x rhs) n r

/-- `Decl.ListComputes order env decls n s`: typing the declarations `decls` one after the other
from `env` and the counter `n`, each in the environment the ones before it left, computes `s` at
one of them. `inferProgram` types a program so from the empty environment. -/
inductive Decl.ListComputes (order : ComponentOrder) : TypeEnv → List Decl → Nat → Subst → Prop
  | head {env : TypeEnv} {d : Decl} {ds : List Decl} {n : Nat} {s : Subst} :
      Decl.Computes order env d n s → Decl.ListComputes order env (d :: ds) n s
  | tail {env env₁ : TypeEnv} {d : Decl} {ds : List Decl} {n n₁ : Nat} {s : Subst} :
      (d.infer order env).run n = (.ok env₁, n₁) → Decl.ListComputes order env₁ ds n₁ s →
      Decl.ListComputes order env (d :: ds) n s

/-- Every substitution typing a declaration computes is reachable. -/
theorem Decl.Computes.reachable {d : Decl} : Decl.Computes order env d n s → s.Reachable
  | .expr h => Expr.infer_reachable _ h
  | .plain h => Expr.infer_reachable _ h
  | .recursive h => Expr.infer_reachable _ h
  | .unifier _ hu => .unify hu
  | .compose h hu hc => .compose (Expr.infer_reachable _ h) (.unify hu) hc

/-- Every substitution typing a list of declarations computes is reachable, whatever the
environments the declarations are typed in. -/
theorem Decl.ListComputes.reachable {decls : List Decl}
    (h : Decl.ListComputes order env decls n s) : s.Reachable := by
  induction h with
  | head hd => exact hd.reachable
  | tail _ _ ih => exact ih

end HindleyMilner
