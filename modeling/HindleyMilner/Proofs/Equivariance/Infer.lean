import HindleyMilner.Proofs.Equivariance.Unify
import HindleyMilner.Proofs.Infer.Run
import Mathlib
/-!
# The starting counter only renames

Inference reads the counter only to draw fresh variables, and unification, composition and
generalization commute with every renaming that keeps variables apart and in order
(`Proofs/Equivariance/Unify`). So starting the counter `d` higher moves every drawn variable up
by `d` and changes nothing else: the substitution, the type and the counter after the run are
those of the lower start with the drawn variables moved, and a failure is the same failure with
its types moved. The variables below the lower start, among them those of the environment, stay
where they are (`Expr.infer_run_shift`).

The renaming is `shiftFrom n d`, which moves the variables from `n` on up by `d`. A computation
`y` *runs shifted* from `x` (`RunsShifted`) when, from every counter `c ≥ n`, `y` started at
`c + d` ends as `x` started at `c` does, renamed and with its counter `d` higher. The relation
is closed under `pure`, `bind`, `throw` and `ofExcept` of renamed values, and a draw runs
shifted from itself; each step of inference then runs shifted from itself on renamed inputs
(`Expr.infer_shifted`), by induction over the expression.
-/

namespace HindleyMilner

open InferM

/-- Moves every variable from `n` on up by `d`, and keeps the variables below `n`. -/
def shiftFrom (n d v : Nat) : Nat := if v < n then v else v + d

theorem shiftFrom_of_lt {n d v : Nat} (h : v < n) : shiftFrom n d v = v := if_pos h

theorem shiftFrom_of_le {n d v : Nat} (h : n ≤ v) : shiftFrom n d v = v + d :=
  if_neg (Nat.not_lt.2 h)

theorem strictMono_shiftFrom (n d : Nat) : StrictMono (shiftFrom n d) := by
  intro v w hvw
  unfold shiftFrom
  split <;> split <;> omega

/-- `y` runs as `x` does with the counter `d` higher, from every counter from `n` on: `x` stops at
a counter from `n` on, and `y` ends with the value of `x` renamed by `f`, or its error with the
types renamed by the shift, at a counter `d` higher. -/
def RunsShifted {α : Type} (n d : Nat) (f : α → α) (x y : InferM α) : Prop :=
  ∀ c, n ≤ c → n ≤ (x.run c).2 ∧
    y.run (c + d) = (renameResult (shiftFrom n d) f (x.run c).1, (x.run c).2 + d)

namespace RunsShifted

variable {α β : Type} {n d : Nat} {f : α → α} {g : β → β}

theorem pure {a b : α} (h : b = f a) : RunsShifted n d f (pure a) (pure b) := by
  intro c hc
  subst h
  exact ⟨hc, rfl⟩

theorem throw {e e' : TypeError} (h : e' = e.rename (shiftFrom n d)) :
    RunsShifted n d f (throw e) (throw e') := by
  intro c hc
  subst h
  exact ⟨hc, rfl⟩

theorem ofExcept {r r' : Except TypeError α} (h : r' = renameResult (shiftFrom n d) f r) :
    RunsShifted n d f (InferM.ofExcept r) (InferM.ofExcept r') := by
  intro c hc
  subst h
  cases r <;> exact ⟨hc, rfl⟩

/-- Running shifted passes through a bind: the second parts are compared at the renamed value. -/
theorem bind {x y : InferM α} {k k' : α → InferM β} (hx : RunsShifted n d f x y)
    (hk : ∀ a, RunsShifted n d g (k a) (k' (f a))) : RunsShifted n d g (x >>= k) (y >>= k') := by
  intro c hc
  obtain ⟨hle, hy⟩ := hx c hc
  rw [run_bind, run_bind, hy]
  rcases hrun : x.run c with ⟨r, c'⟩
  rw [hrun] at hle
  cases r with
  | ok a => exact hk a c' hle
  | error e => exact ⟨hle, rfl⟩

/-- A draw from a counter `d` higher draws the shifted variable. -/
theorem freshId : RunsShifted n d (shiftFrom n d) freshId freshId := by
  intro c hc
  refine ⟨Nat.le_succ_of_le hc, ?_⟩
  rw [run_freshId, run_freshId, renameResult_ok, shiftFrom_of_le hc, Nat.add_right_comm]

theorem fresh : RunsShifted n d (Ty.rename (shiftFrom n d)) fresh fresh :=
  freshId.bind fun _ => pure rfl

/-- `bind` for a first part that gives a pair, with the continuation taking the pair's parts. -/
theorem bind_pair {γ : Type} {f : α × γ → α × γ} {x y : InferM (α × γ)}
    {k k' : α × γ → InferM β} (hx : RunsShifted n d f x y)
    (hk : ∀ a b, RunsShifted n d g (k (a, b)) (k' (f (a, b)))) :
    RunsShifted n d g (x >>= k) (y >>= k') :=
  hx.bind fun p => hk p.1 p.2

end RunsShifted

section

variable {n d : Nat}

/-- Returning a substitution with a type it is applied to, shifted from returning them unshifted. -/
theorem pure_apply_shifted (s : Subst) (t : Ty) :
    RunsShifted n d (Prod.map (Subst.rename (shiftFrom n d)) (Ty.rename (shiftFrom n d)))
      (pure (s, s.apply t))
      (pure (s.rename (shiftFrom n d),
        (s.rename (shiftFrom n d)).apply (t.rename (shiftFrom n d)))) :=
  RunsShifted.pure (by
    rw [Prod.map_apply, Subst.apply_rename (strictMono_shiftFrom n d).injective])

/-- Numbering the shifted variables from `c + d` is numbering the variables from `c`, both shifted,
when `c` is from `n` on. -/
theorem zipIdx_map_shiftFrom {c : Nat} (hc : n ≤ c) (vs : List Nat) :
    (vs.map (shiftFrom n d)).zipIdx (c + d) =
      (vs.zipIdx c).map (fun e => (shiftFrom n d e.1, shiftFrom n d e.2)) := by
  induction vs generalizing c with
  | nil => rfl
  | cons v vs ih =>
    rw [List.map_cons, List.zipIdx_cons, List.zipIdx_cons, List.map_cons, shiftFrom_of_le hc,
      Nat.add_right_comm, ih (Nat.le_succ_of_le hc)]

theorem Const.infer_shifted (c : Const) :
    RunsShifted n d (Ty.rename (shiftFrom n d)) c.infer c.infer := by
  cases c with
  | nil => exact RunsShifted.fresh.bind fun _ => RunsShifted.pure rfl
  | _ => exact RunsShifted.pure rfl

theorem BinOp.signature_shifted (op : BinOp) :
    RunsShifted n d (fun r => (r.1.rename (shiftFrom n d), r.2.1.rename (shiftFrom n d),
      r.2.2.rename (shiftFrom n d))) op.signature op.signature := by
  unfold BinOp.signature
  cases op.opClass with
  | comparison => exact RunsShifted.fresh.bind fun _ => RunsShifted.pure rfl
  | _ => exact RunsShifted.pure rfl

/-- Instantiating the shifted scheme from a counter `d` higher gives the shifted instance: each
quantified variable is replaced by its draw, shifted. -/
theorem Scheme.instantiate_shifted (sc : Scheme) :
    RunsShifted n d (Ty.rename (shiftFrom n d)) sc.instantiate
      (sc.rename (shiftFrom n d)).instantiate := by
  have hρ := strictMono_shiftFrom n d
  unfold Scheme.instantiate
  simp only [Scheme.rename, List.isEmpty_map]
  split
  · exact RunsShifted.pure rfl
  · intro c hc
    rw [run_bind, run_bind, run_mapM_draw, run_mapM_draw, zipIdx_map_shiftFrom hc]
    dsimp only
    rw [run_pure, run_pure, SortedMap.ofList_map hρ, List.length_map, Nat.add_right_comm]
    refine ⟨Nat.le_add_right_of_le hc, ?_⟩
    -- the drawn variables are looked up under their shifted names
    rw [renameResult_ok, Ty.rename_rename, Ty.rename_rename]
    congr 3
    funext v
    simp only [Function.comp, SortedMap.find?_map hρ.injective]
    cases (SortedMap.ofList (sc.vars.zipIdx c)).find? v <;> rfl

mutual

/-- Typing a pattern in the shifted environment from a counter `d` higher gives the shifted
environment and type. -/
theorem Pattern.infer_shifted : ∀ (p : Pattern) (env : TypeEnv),
    RunsShifted n d (Prod.map (TypeEnv.rename (shiftFrom n d)) (Ty.rename (shiftFrom n d)))
      (p.infer env) (p.infer (env.rename (shiftFrom n d)))
  | .any, _ => RunsShifted.fresh.bind fun _ => RunsShifted.pure rfl
  | .lit c, _ => (Const.infer_shifted c).bind fun _ => RunsShifted.pure rfl
  | .var name, env => RunsShifted.fresh.bind fun t => RunsShifted.pure (by
      rw [Prod.map_apply, ← Scheme.rename_mono, TypeEnv.extend_rename])
  | .cons h tl, env => by
    have hρ := strictMono_shiftFrom n d
    simp only [Pattern.infer]
    refine (Pattern.infer_shifted h env).bind_pair fun env₁ th => ?_
    refine (Pattern.infer_shifted tl env₁).bind_pair fun env₂ tt => ?_
    refine (RunsShifted.ofExcept (unify_rename hρ (.list th) tt)).bind fun s => ?_
    exact RunsShifted.pure (by
      simp only [Prod.map_apply, TypeEnv.applySubst_rename hρ.injective,
        Subst.apply_rename hρ.injective])
  | .tuple items, env => (Pattern.inferList_shifted items env).bind fun _ =>
      RunsShifted.pure (by simp)
  | .ctor name _, _ => RunsShifted.throw rfl

theorem Pattern.inferList_shifted : ∀ (ps : List Pattern) (env : TypeEnv),
    RunsShifted n d
      (Prod.map (TypeEnv.rename (shiftFrom n d)) (List.map (Ty.rename (shiftFrom n d))))
      (Pattern.inferList env ps) (Pattern.inferList (env.rename (shiftFrom n d)) ps)
  | [], _ => RunsShifted.pure rfl
  | p :: ps, env => (Pattern.infer_shifted p env).bind_pair fun env₁ _ =>
      (Pattern.inferList_shifted ps env₁).bind fun _ => RunsShifted.pure rfl

end

/-- A component typed in the shifted environment after the shifted substitution, from a counter
`d` higher, gives the shifted outcome, in either order. -/
theorem inferComponent_shifted {order : ComponentOrder} {env : TypeEnv} {s : Subst}
    {inferIn inferIn' : TypeEnv → InferM (Subst × Ty)}
    (h : ∀ env, RunsShifted n d
      (Prod.map (Subst.rename (shiftFrom n d)) (Ty.rename (shiftFrom n d)))
      (inferIn env) (inferIn' (env.rename (shiftFrom n d)))) :
    RunsShifted n d (Prod.map (Subst.rename (shiftFrom n d)) (Ty.rename (shiftFrom n d)))
      (inferComponent order env s inferIn)
      (inferComponent order (env.rename (shiftFrom n d)) (s.rename (shiftFrom n d)) inferIn') := by
  have hρ := strictMono_shiftFrom n d
  have h' : ∀ env env', env' = env.rename (shiftFrom n d) → RunsShifted n d
      (Prod.map (Subst.rename (shiftFrom n d)) (Ty.rename (shiftFrom n d))) (inferIn env)
      (inferIn' env') := fun env _ he => he ▸ h env
  unfold inferComponent
  refine (h' _ _ ?_).bind_pair fun s' _ =>
    (RunsShifted.ofExcept (Subst.compose_rename hρ s s')).bind fun _ => RunsShifted.pure rfl
  -- the component sees the shifted environment, in either order
  cases order
  · exact TypeEnv.applySubst_rename hρ.injective s
  · rfl

/-- A binding typed in the shifted environment from a counter `d` higher gives the shifted
substitution and environment, plain or recursive. -/
theorem inferBinding_shifted {env : TypeEnv} {kind : BindingKind} {name : String}
    {inferValue inferValue' : TypeEnv → InferM (Subst × Ty)}
    (h : ∀ env, RunsShifted n d
      (Prod.map (Subst.rename (shiftFrom n d)) (Ty.rename (shiftFrom n d)))
      (inferValue env) (inferValue' (env.rename (shiftFrom n d)))) :
    RunsShifted n d (Prod.map (Subst.rename (shiftFrom n d)) (TypeEnv.rename (shiftFrom n d)))
      (inferBinding env kind name inferValue)
      (inferBinding (env.rename (shiftFrom n d)) kind name inferValue') := by
  have hρ := strictMono_shiftFrom n d
  cases kind with
  | plain =>
    simp only [inferBinding]
    refine (h env).bind_pair fun s₁ t => RunsShifted.pure ?_
    rw [Prod.map_apply, Prod.map_apply, TypeEnv.applySubst_rename hρ.injective,
      TypeEnv.generalize_rename hρ.injective, TypeEnv.extend_rename]
  | recursive =>
    simp only [inferBinding]
    refine RunsShifted.fresh.bind fun p => ?_
    rw [← Scheme.rename_mono, TypeEnv.extend_rename]
    refine (h _).bind_pair fun s₁ t => ?_
    rw [Prod.map_apply, Subst.apply_rename hρ.injective]
    refine (RunsShifted.ofExcept (unify_rename hρ _ _)).bind fun s₂ => ?_
    refine (RunsShifted.ofExcept (Subst.compose_rename hρ s₁ s₂)).bind fun s => ?_
    refine RunsShifted.pure ?_
    rw [Prod.map_apply, Subst.apply_rename hρ.injective, TypeEnv.applySubst_rename hρ.injective,
      TypeEnv.generalizeRec_rename hρ.injective, TypeEnv.extend_rename]

mutual

/-- Typing an expression in the shifted environment from a counter `d` higher gives the shifted
substitution and type, or the shifted error. -/
theorem Expr.infer_shifted : ∀ (e : Expr) (order : ComponentOrder) (env : TypeEnv),
    RunsShifted n d (Prod.map (Subst.rename (shiftFrom n d)) (Ty.rename (shiftFrom n d)))
      (Expr.infer order env e) (Expr.infer order (env.rename (shiftFrom n d)) e)
  | .lit c, _, _ => (Const.infer_shifted c).bind fun _ => RunsShifted.pure rfl
  | .var name, _, env => by
    simp only [Expr.infer, TypeEnv.find?_rename]
    cases env.find? name with
    | none => exact RunsShifted.throw rfl
    | some sc => exact (Scheme.instantiate_shifted sc).bind fun _ => RunsShifted.pure rfl
  | .binop op l r, order, env => by
    have hρ := strictMono_shiftFrom n d
    simp only [Expr.infer]
    refine (Expr.infer_shifted l order env).bind_pair fun s₁ tl => ?_
    simp only [Prod.map_apply, TypeEnv.applySubst_rename hρ.injective]
    refine (Expr.infer_shifted r order _).bind_pair fun s₂ tr => ?_
    refine (BinOp.signature_shifted op).bind fun sig => ?_
    obtain ⟨el, er, res⟩ := sig
    refine (RunsShifted.ofExcept (Subst.compose_rename hρ s₁ s₂)).bind fun s₃ => ?_
    simp only [Prod.map_apply, Subst.apply_rename hρ.injective]
    refine (RunsShifted.ofExcept
      (Subst.mergeUnifier_rename hρ s₃ (s₃.apply tl) (s₃.apply el))).bind fun s₄ => ?_
    simp only [Subst.apply_rename hρ.injective]
    refine (RunsShifted.ofExcept
      (Subst.mergeUnifier_rename hρ s₄ (s₄.apply tr) (s₄.apply er))).bind fun s₅ => ?_
    exact pure_apply_shifted s₅ res
  | .ite c t e, order, env => by
    have hρ := strictMono_shiftFrom n d
    simp only [Expr.infer]
    refine (Expr.infer_shifted c order env).bind_pair fun s₁ tc => ?_
    simp only [Prod.map_apply, TypeEnv.applySubst_rename hρ.injective]
    refine (Expr.infer_shifted t order _).bind_pair fun s₂ tt => ?_
    simp only [Prod.map_apply, TypeEnv.applySubst_rename hρ.injective]
    refine (Expr.infer_shifted e order _).bind_pair fun s₃ te => ?_
    refine (RunsShifted.ofExcept (Subst.compose_rename hρ s₁ s₂)).bind fun s₄ => ?_
    refine (RunsShifted.ofExcept (Subst.compose_rename hρ s₄ s₃)).bind fun s₅ => ?_
    simp only [Prod.map_apply, Subst.apply_rename hρ.injective]
    refine (RunsShifted.ofExcept
      (Subst.mergeUnifier_rename hρ s₅ (s₅.apply tc) .bool)).bind fun s₆ => ?_
    simp only [Subst.apply_rename hρ.injective]
    refine (RunsShifted.ofExcept
      (Subst.mergeUnifier_rename hρ s₆ (s₆.apply tt) (s₆.apply te))).bind fun s₇ => ?_
    exact pure_apply_shifted s₇ tt
  | .matchOn _ [], _, _ => by
    simp only [Expr.infer]
    exact RunsShifted.throw rfl
  | .matchOn scrutinee (arm :: arms), order, env => by
    simp only [Expr.infer]
    refine (Expr.infer_shifted scrutinee order env).bind_pair fun s ts => ?_
    refine RunsShifted.fresh.bind fun r => ?_
    simp only [Prod.map_apply]
    exact (Expr.inferArms_shifted (arm :: arms) order env ts r s).bind fun s' =>
      pure_apply_shifted s' r
  | .letIn kind name value body, order, env => by
    have hρ := strictMono_shiftFrom n d
    simp only [Expr.infer]
    refine (inferBinding_shifted fun env' => Expr.infer_shifted value order env').bind_pair
      fun s₁ env₁ => ?_
    simp only [Prod.map_apply]
    refine (Expr.infer_shifted body order env₁).bind_pair fun s₂ tb => ?_
    exact (RunsShifted.ofExcept (Subst.compose_rename hρ s₁ s₂)).bind fun s =>
      pure_apply_shifted s tb
  | .lam p body, order, env => by
    simp only [Expr.infer]
    refine (Pattern.infer_shifted p env).bind_pair fun penv tp => ?_
    exact (Expr.infer_shifted body order penv).bind_pair fun s tb =>
      pure_apply_shifted s (.arrow tp tb)
  | .tuple items, order, env => by
    have hρ := strictMono_shiftFrom n d
    simp only [Expr.infer]
    refine (Expr.inferItems_shifted items order env Subst.empty).bind_pair fun s ts => ?_
    exact RunsShifted.pure (by
      simp [Ty.rename_tuple, Function.comp_def, Subst.apply_rename hρ.injective])
  | .cons h t, order, env => by
    have hρ := strictMono_shiftFrom n d
    simp only [Expr.infer]
    refine (inferComponent_shifted fun env' => Expr.infer_shifted h order env').bind_pair
      fun s th => ?_
    refine (inferComponent_shifted fun env' => Expr.infer_shifted t order env').bind_pair
      fun s₁ tt => ?_
    simp only [Prod.map_apply, Subst.apply_rename hρ.injective]
    refine (RunsShifted.ofExcept
      (Subst.mergeUnifier_rename hρ s₁ (.list (s₁.apply th)) (s₁.apply tt))).bind fun s₂ => ?_
    exact pure_apply_shifted s₂ (s₁.apply tt)
  | .app f a, order, env => by
    have hρ := strictMono_shiftFrom n d
    simp only [Expr.infer]
    refine (Expr.infer_shifted f order env).bind_pair fun s₁ tf => ?_
    simp only [Prod.map_apply, TypeEnv.applySubst_rename hρ.injective]
    refine (Expr.infer_shifted a order _).bind_pair fun s₂ ta => ?_
    refine RunsShifted.fresh.bind fun r => ?_
    refine (RunsShifted.ofExcept (Subst.compose_rename hρ s₁ s₂)).bind fun s => ?_
    simp only [Prod.map_apply, Subst.apply_rename hρ.injective]
    refine (RunsShifted.ofExcept
      (Subst.mergeUnifier_rename hρ s (s.apply tf) (.arrow (s.apply ta) r))).bind fun s' => ?_
    exact pure_apply_shifted s' r
  | .ctor name _, _, _ => by
    simp only [Expr.infer]
    exact RunsShifted.throw rfl
  | .variant tag _, _, _ => by
    simp only [Expr.infer]
    exact RunsShifted.throw rfl

/-- The arms of a match, typed against shifted types after a shifted substitution, from a counter
`d` higher, give the shifted substitution. -/
theorem Expr.inferArms_shifted : ∀ (arms : List (Pattern × Expr)) (order : ComponentOrder)
    (env : TypeEnv) (scrutTy resultTy : Ty) (s : Subst),
    RunsShifted n d (Subst.rename (shiftFrom n d))
      (Expr.inferArms order env scrutTy resultTy s arms)
      (Expr.inferArms order (env.rename (shiftFrom n d)) (scrutTy.rename (shiftFrom n d))
        (resultTy.rename (shiftFrom n d)) (s.rename (shiftFrom n d)) arms)
  | [], _, _, _, _, _ => RunsShifted.pure rfl
  | (p, body) :: rest, order, env, scrutTy, resultTy, s => by
    have hρ := strictMono_shiftFrom n d
    simp only [Expr.inferArms, TypeEnv.applySubst_rename hρ.injective]
    refine (Pattern.infer_shifted p _).bind_pair fun penv tp => ?_
    simp only [Prod.map_apply, Subst.apply_rename hρ.injective]
    refine (RunsShifted.ofExcept
      (Subst.mergeUnifier_rename hρ s (s.apply scrutTy) (s.apply tp))).bind fun s₁ => ?_
    simp only [TypeEnv.applySubst_rename hρ.injective]
    refine (Expr.infer_shifted body order _).bind_pair fun s₂ tb => ?_
    refine (RunsShifted.ofExcept (Subst.compose_rename hρ s₁ s₂)).bind fun s₃ => ?_
    simp only [Prod.map_apply, Subst.apply_rename hρ.injective]
    refine (RunsShifted.ofExcept
      (Subst.mergeUnifier_rename hρ s₃ (s₃.apply resultTy) (s₃.apply tb))).bind fun s₄ => ?_
    exact Expr.inferArms_shifted rest order env scrutTy resultTy s₄

/-- The components of a tuple, typed after a shifted substitution from a counter `d` higher,
give the shifted substitution and types. -/
theorem Expr.inferItems_shifted : ∀ (items : List Expr) (order : ComponentOrder) (env : TypeEnv)
    (s : Subst),
    RunsShifted n d (Prod.map (Subst.rename (shiftFrom n d)) (List.map (Ty.rename (shiftFrom n d))))
      (Expr.inferItems order env s items)
      (Expr.inferItems order (env.rename (shiftFrom n d)) (s.rename (shiftFrom n d)) items)
  | [], _, _, _ => RunsShifted.pure rfl
  | e :: es, order, env, s => by
    simp only [Expr.inferItems]
    refine (inferComponent_shifted fun env' => Expr.infer_shifted e order env').bind_pair
      fun s₁ _ => ?_
    exact (Expr.inferItems_shifted es order env s₁).bind fun _ => RunsShifted.pure rfl

end

end

/-- Inference from a higher counter only renames. Take counters `n₀ ≤ n₁` above every variable of
the environment, quantified or not, and the shift that moves the variables from `n₀` on up by
`n₁ - n₀`. The run from `n₁` gives the substitution and the type of the run from `n₀` shifted,
and stops `n₁ - n₀` later; or it fails with the error of the run from `n₀`, its types shifted. -/
theorem Expr.infer_run_shift (order : ComponentOrder) (env : TypeEnv) (e : Expr) {n₀ n₁ : Nat}
    (hn : n₀ ≤ n₁) (henv : ∀ b ∈ env.entries, ∀ v ∈ b.2.vars ++ b.2.ty.vars, v < n₀) :
    (∀ s t k, (Expr.infer order env e).run n₀ = (.ok (s, t), k) →
      (Expr.infer order env e).run n₁ = (.ok (s.rename (shiftFrom n₀ (n₁ - n₀)),
        t.rename (shiftFrom n₀ (n₁ - n₀))), k + (n₁ - n₀))) ∧
    (∀ err k, (Expr.infer order env e).run n₀ = (.error err, k) →
      (Expr.infer order env e).run n₁ =
        (.error (err.rename (shiftFrom n₀ (n₁ - n₀))), k + (n₁ - n₀))) := by
  -- the variables of the environment are below `n₀`, where the shift moves nothing
  have hfix : env.rename (shiftFrom n₀ (n₁ - n₀)) = env :=
    TypeEnv.rename_eq_self fun b hb v hv => shiftFrom_of_lt (henv b hb v (List.mem_append.2 hv))
  have hrun := (Expr.infer_shifted (n := n₀) (d := n₁ - n₀) e order env n₀ (Nat.le_refl n₀)).2
  rw [hfix, Nat.add_sub_cancel' hn] at hrun
  exact ⟨fun s t k h => by rw [hrun, h]; rfl, fun err k h => by rw [hrun, h]; rfl⟩

/-- `id y`, with `id : ∀ 't0. 't0 -> 't0` and `y : 't1`, draws `'t2` for the instance of `id` and
`'t3` for the result when typed from counter 2; from counter 5 it draws `'t5` and `'t6` in their
place, and `'t1` stays. -/
theorem Expr.infer_run_shift_identity :
    (Expr.infer .sequential ⟨[("id", ⟨[0], .arrow (.var 0) (.var 0)⟩), ("y", ⟨[], .var 1⟩)]⟩
        (.app (.var "id") (.var "y"))).run 2 =
      (.ok (⟨[(1, .var 3), (2, .var 3)]⟩, .var 3), 4) ∧
    (Expr.infer .sequential ⟨[("id", ⟨[0], .arrow (.var 0) (.var 0)⟩), ("y", ⟨[], .var 1⟩)]⟩
        (.app (.var "id") (.var "y"))).run 5 =
      (.ok (⟨[(1, .var 6), (5, .var 6)]⟩, .var 6), 7) :=
  have h : (Expr.infer .sequential
      ⟨[("id", ⟨[0], .arrow (.var 0) (.var 0)⟩), ("y", ⟨[], .var 1⟩)]⟩
        (.app (.var "id") (.var "y"))).run 2 =
      (.ok (⟨[(1, .var 3), (2, .var 3)]⟩, .var 3), 4) := by
    cbv
  ⟨h, (Expr.infer_run_shift .sequential _ _ (by decide) (by decide)).1 _ _ _ h⟩

end HindleyMilner
