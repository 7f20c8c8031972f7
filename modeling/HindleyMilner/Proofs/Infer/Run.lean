import HindleyMilner.Infer.Expr
import HindleyMilner.Typing
import HindleyMilner.Proofs.SortedMap
import HindleyMilner.Proofs.Substitution
/-!
# Runs of the inference monad

A computation of `InferM`, run from a counter, ends with a value or an error and a counter. The
lemmas here take successful runs apart, so that no proof about inference unfolds the monad:
a bind succeeds when both of its parts do, one after the other (`InferM.run_bind_eq_ok`), and
`ofExcept` succeeds exactly on `ok`, drawing nothing (`InferM.run_ofExcept_eq_ok`).

The steps of inference that draw variables, each with what it gives and what it draws:

* `Const.infer_spec`: the type of a constant, with variables drawn in `[n, n')`;
* `BinOp.signature_spec`: the types of an operator's class;
* `Scheme.instantiate_spec`: an instance of the scheme whose variables are its free ones or drawn.
-/

namespace HindleyMilner

namespace InferM

variable {α β : Type} {n n' n'' : Nat}

@[simp] theorem run_pure (a : α) (n : Nat) : (pure a : InferM α).run n = (.ok a, n) := rfl

theorem run_bind (x : InferM α) (f : α → InferM β) (n : Nat) :
    (x >>= f).run n = match x.run n with
      | (.ok a, n') => (f a).run n'
      | (.error e, n') => (.error e, n') := by
  show (ExceptT.run (x >>= f)).run n = _
  rw [ExceptT.run_bind]
  simp only [run, StateT.run_bind]
  rcases (ExceptT.run x).run n with ⟨r, n'⟩
  cases r <;> rfl

/-- A bind succeeds when its first part does and its second part does from where the first
stopped. -/
@[simp] theorem run_bind_eq_ok {x : InferM α} {f : α → InferM β} {b : β} :
    (x >>= f).run n = (.ok b, n'') ↔
      ∃ a n', x.run n = (.ok a, n') ∧ (f a).run n' = (.ok b, n'') := by
  rw [run_bind]
  rcases h : x.run n with ⟨r, n'⟩
  cases r with
  | error e => simp
  | ok a =>
    exact ⟨fun h' => ⟨a, n', rfl, h'⟩, fun ⟨a', n₁, h₁, h'⟩ => by cases h₁; exact h'⟩

/-- `ofExcept` succeeds exactly on `ok`, and draws nothing. -/
@[simp] theorem run_ofExcept_eq_ok {x : Except TypeError α} {a : α} :
    (ofExcept x).run n = (.ok a, n') ↔ x = .ok a ∧ n' = n := by
  cases x with
  | error e =>
    show ((.error e, n) : Except TypeError α × Nat) = (.ok a, n') ↔ _
    simp
  | ok a' =>
    show ((.ok a', n) : Except TypeError α × Nat) = (.ok a, n') ↔ _
    simp [eq_comm]

@[simp] theorem run_throw_ne_ok {e : TypeError} {a : α} :
    (throw e : InferM α).run n ≠ (.ok a, n') := by
  show ((.error e, n) : Except TypeError α × Nat) ≠ _
  simp

@[simp] theorem run_freshId (n : Nat) : freshId.run n = (.ok n, n + 1) := rfl

@[simp] theorem run_fresh (n : Nat) : fresh.run n = (.ok (.var n), n + 1) := rfl

end InferM

open InferM

/-- The type of a constant, with its variables drawn. -/
theorem Const.infer_spec {c : Const} {t : Ty} {n n' : Nat} (h : c.infer.run n = (.ok t, n')) :
    ConstType c t ∧ n ≤ n' ∧ ∀ v ∈ t.vars, n ≤ v ∧ v < n' := by
  cases c with
  | int v =>
    cases h
    exact ⟨.int v, Nat.le_refl _, by simp⟩
  | bool b =>
    cases h
    exact ⟨.bool b, Nat.le_refl _, by simp⟩
  | str s =>
    cases h
    exact ⟨.str s, Nat.le_refl _, by simp⟩
  | unit =>
    cases h
    exact ⟨.unit, Nat.le_refl _, by simp⟩
  | nil =>
    -- the element type is one drawn variable
    cases h
    exact ⟨.nil _, Nat.le_succ n, by simp⟩

/-- The operand and result types of an operator, with its variables drawn. -/
theorem BinOp.signature_spec {op : BinOp} {el er res : Ty} {n n' : Nat}
    (h : op.signature.run n = (.ok (el, er, res), n')) :
    OpType op el er res ∧ n ≤ n' ∧ ∀ v ∈ el.vars ++ er.vars ++ res.vars, n ≤ v ∧ v < n' := by
  unfold BinOp.signature at h
  split at h
  · rename_i hc
    cases h
    exact ⟨.arithmetic hc, Nat.le_refl _, by simp⟩
  · rename_i hc
    cases h
    exact ⟨.comparison _ hc, Nat.le_succ n, by simp⟩
  · rename_i hc
    cases h
    exact ⟨.boolean hc, Nat.le_refl _, by simp⟩

/-- Drawing one variable for each of `vs` pairs the `i`-th of them with `n + i`. -/
theorem run_mapM_draw : ∀ (vs : List Nat) (n : Nat),
    (vs.mapM (fun v => do return (v, ← freshId))).run n = (.ok (vs.zipIdx n), n + vs.length)
  | [], n => rfl
  | v :: vs, n => by
    rw [List.mapM_cons, run_bind_eq_ok]
    refine ⟨(v, n), n + 1, rfl, ?_⟩
    rw [run_bind_eq_ok]
    refine ⟨vs.zipIdx (n + 1), n + 1 + vs.length, run_mapM_draw vs (n + 1), ?_⟩
    simp only [run_pure, List.zipIdx_cons, List.length_cons, Prod.mk.injEq, true_and]
    omega

/-- An instance drawn from a scheme: an instance in the sense of the typing rules, whose
variables are free variables of the scheme or drawn ones. -/
theorem Scheme.instantiate_spec {sc : Scheme} {t : Ty} {n n' : Nat}
    (h : sc.instantiate.run n = (.ok t, n')) :
    sc.Instance t ∧ n ≤ n' ∧ ∀ v ∈ t.vars, (v ∈ sc.ty.vars ∧ v ∉ sc.vars) ∨ (n ≤ v ∧ v < n') := by
  unfold Scheme.instantiate at h
  split at h
  · -- nothing is quantified: the body itself
    rename_i hempty
    cases h
    refine ⟨⟨Ty.var, fun _ _ => rfl, Subst.apply_empty.substWith_var _⟩, Nat.le_refl _,
      fun v hv => Or.inl ⟨hv, ?_⟩⟩
    simp [List.isEmpty_iff.1 hempty]
  · rw [run_bind_eq_ok] at h
    obtain ⟨pairs, n₁, hrun, h⟩ := h
    rw [run_mapM_draw] at hrun
    cases hrun
    cases h
    have hkeys : (sc.vars.zipIdx n).map (·.1) = sc.vars := List.zipIdx_map_fst n sc.vars
    -- each variable goes to its drawn number, or stays
    have hrename : ∀ v, v ∉ sc.vars →
        ((SortedMap.ofList (sc.vars.zipIdx n)).find? v).getD v = v := fun v hv => by
      rw [SortedMap.find?_ofList_eq_none (by rwa [hkeys])]
      rfl
    refine ⟨⟨_, fun v hv => congrArg Ty.var (hrename v hv), rfl⟩, Nat.le_add_right _ _,
      fun w hw => ?_⟩
    rw [Ty.rename_eq, Ty.mem_vars_substWith] at hw
    obtain ⟨v, hv, hw⟩ := hw
    simp only [Ty.vars_var, List.mem_singleton] at hw
    subst hw
    by_cases hq : v ∈ sc.vars
    · obtain ⟨i, hi⟩ := SortedMap.find?_ofList_isSome (by rwa [hkeys])
      rw [hi]
      obtain ⟨hni, hin, -⟩ := List.mem_zipIdx (SortedMap.mem_of_find?_ofList hi)
      exact Or.inr ⟨hni, hin⟩
    · rw [hrename v hq]
      exact Or.inl ⟨hv, hq⟩

section Binding

variable {env env₁ : TypeEnv} {x : String} {inferValue : TypeEnv → InferM (Subst × Ty)}
  {s : Subst} {n m : Nat}

/-- A plain binding: the value is typed in the environment, and the name is bound to its type
generalized in the environment under the value's substitution. -/
theorem inferBinding_plain_run_iff :
    (inferBinding env .plain x inferValue).run n = (.ok (s, env₁), m) ↔
      ∃ t, (inferValue env).run n = (.ok (s, t), m) ∧
        env₁ = (env.applySubst s).extend x ((env.applySubst s).generalize t) := by
  simp only [inferBinding, run_bind_eq_ok, run_pure, Prod.mk.injEq, Except.ok.injEq]
  constructor
  · rintro ⟨⟨s₁, t⟩, k, hrun, ⟨rfl, rfl⟩, rfl⟩
    exact ⟨t, hrun, rfl⟩
  · rintro ⟨t, hrun, rfl⟩
    exact ⟨(s, t), m, hrun, ⟨rfl, rfl⟩, rfl⟩

/-- A recursive binding: the value is typed with the name bound to the variable `n` drawn for
it, that variable is unified with the value's type, and the name is bound to the type
generalized without its own placeholder. -/
theorem inferBinding_recursive_run_iff :
    (inferBinding env .recursive x inferValue).run n = (.ok (s, env₁), m) ↔
      ∃ s₁ t s₂, (inferValue (env.extend x (.mono (.var n)))).run (n + 1) = (.ok (s₁, t), m) ∧
        unify (s₁.apply (.var n)) t = .ok s₂ ∧ s₁.compose s₂ = .ok s ∧
        env₁ = ((env.extend x (.mono (.var n))).applySubst s).extend x
          (((env.extend x (.mono (.var n))).applySubst s).generalizeRec (s.apply t) x) := by
  simp only [inferBinding, run_bind_eq_ok, run_pure, run_fresh, run_ofExcept_eq_ok,
    Prod.mk.injEq, Except.ok.injEq]
  constructor
  · rintro ⟨p, n₁, ⟨rfl, rfl⟩, ⟨s₁, t⟩, k₁, hrun, s₂, k₂, ⟨hu, rfl⟩, s₃, k, ⟨hc, rfl⟩,
      ⟨rfl, rfl⟩, rfl⟩
    exact ⟨s₁, t, s₂, hrun, hu, hc, rfl⟩
  · rintro ⟨s₁, t, s₂, hrun, hu, hc, rfl⟩
    exact ⟨_, _, ⟨rfl, rfl⟩, (s₁, t), m, hrun, s₂, m, ⟨hu, rfl⟩, s, m, ⟨hc, rfl⟩, ⟨rfl, rfl⟩,
      rfl⟩

end Binding

/-! ## Runs of inference, construct by construct

What a successful run of inference on each construct consists of: the runs of its parts, one
after the other, and the compositions and unifications after them. Proofs about inference take a
run apart with these and never unfold `Expr.infer`; completeness proofs use them backwards to
assemble a run from its parts.

Most constructs are a bind by the definition of inference, so `run_bind_eq_ok` applies to them as
they stand; only the name lookup, a `match` on the environment, goes through the equations of
`Expr.infer`. -/

section Constructs

variable {order : ComponentOrder} {env : TypeEnv} {s : Subst} {t : Ty} {n m : Nat}

/-- A constant: its type, with nothing substituted. -/
theorem Expr.infer_lit_run_iff {c : Const} :
    (Expr.infer order env (.lit c)).run n = (.ok (s, t), m) ↔
      c.infer.run n = (.ok t, m) ∧ s = .empty := by
  refine run_bind_eq_ok.trans ?_
  simp only [run_pure, Prod.mk.injEq, Except.ok.injEq]
  constructor
  · rintro ⟨t', k, hc, ⟨rfl, rfl⟩, rfl⟩
    exact ⟨hc, rfl⟩
  · rintro ⟨hc, rfl⟩
    exact ⟨t, m, hc, ⟨rfl, rfl⟩, rfl⟩

/-- A name is typed by an instance of the scheme the environment binds it to. -/
theorem Expr.infer_var_run_iff {x : String} :
    (Expr.infer order env (.var x)).run n = (.ok (s, t), m) ↔
      ∃ sc, env.find? x = some sc ∧ sc.instantiate.run n = (.ok t, m) ∧ s = .empty := by
  simp only [Expr.infer]
  split
  · rename_i sc hsc
    simp only [run_bind_eq_ok, run_pure, Prod.mk.injEq, Except.ok.injEq, hsc, Option.some.injEq]
    constructor
    · rintro ⟨t', k, hi, ⟨rfl, rfl⟩, rfl⟩
      exact ⟨sc, rfl, hi, rfl⟩
    · rintro ⟨_, rfl, hi, rfl⟩
      exact ⟨t, m, hi, ⟨rfl, rfl⟩, rfl⟩
  · rename_i hx
    simp [hx]

/-- An operator: both operands, one after the other, then the operator's signature; each
operand's type is unified with its slot. -/
theorem Expr.infer_binop_run_iff {op : BinOp} {l r : Expr} :
    (Expr.infer order env (.binop op l r)).run n = (.ok (s, t), m) ↔
      ∃ s₁ tl n₁ s₂ tr n₂ el er res s₃ s₄,
        (Expr.infer order env l).run n = (.ok (s₁, tl), n₁) ∧
        (Expr.infer order (env.applySubst s₁) r).run n₁ = (.ok (s₂, tr), n₂) ∧
        op.signature.run n₂ = (.ok (el, er, res), m) ∧ s₁.compose s₂ = .ok s₃ ∧
        s₃.mergeUnifier (s₃.apply tl) (s₃.apply el) = .ok s₄ ∧
        s₄.mergeUnifier (s₄.apply tr) (s₄.apply er) = .ok s ∧ t = s.apply res := by
  refine run_bind_eq_ok.trans ?_
  simp only [run_bind_eq_ok, run_pure, run_ofExcept_eq_ok, Prod.mk.injEq, Except.ok.injEq]
  constructor
  · rintro ⟨⟨s₁, tl⟩, n₁, h₁, ⟨s₂, tr⟩, n₂, h₂, ⟨el, er, res⟩, k₃, hsig, s₃, k₄, ⟨hc, rfl⟩,
      s₄, k₅, ⟨hm₁, rfl⟩, s₅, n₃, ⟨hm₂, rfl⟩, ⟨rfl, rfl⟩, rfl⟩
    exact ⟨s₁, tl, n₁, s₂, tr, n₂, el, er, res, s₃, s₄, h₁, h₂, hsig, hc, hm₁, hm₂, rfl⟩
  · rintro ⟨s₁, tl, n₁, s₂, tr, n₂, el, er, res, s₃, s₄, h₁, h₂, hsig, hc, hm₁, hm₂, rfl⟩
    exact ⟨_, _, h₁, _, _, h₂, _, _, hsig, _, _, ⟨hc, rfl⟩, _, _, ⟨hm₁, rfl⟩, _, _, ⟨hm₂, rfl⟩,
      ⟨rfl, rfl⟩, rfl⟩

/-- A conditional: the condition and the two branches, each in the environment the one before
it left; the condition is unified with `bool` and the branches with each other. -/
theorem Expr.infer_ite_run_iff {c a b : Expr} :
    (Expr.infer order env (.ite c a b)).run n = (.ok (s, t), m) ↔
      ∃ s₁ tc n₁ s₂ ta n₂ s₃ tb s₄ s₅ s₆,
        (Expr.infer order env c).run n = (.ok (s₁, tc), n₁) ∧
        (Expr.infer order (env.applySubst s₁) a).run n₁ = (.ok (s₂, ta), n₂) ∧
        (Expr.infer order ((env.applySubst s₁).applySubst s₂) b).run n₂ = (.ok (s₃, tb), m) ∧
        s₁.compose s₂ = .ok s₄ ∧ s₄.compose s₃ = .ok s₅ ∧
        s₅.mergeUnifier (s₅.apply tc) .bool = .ok s₆ ∧
        s₆.mergeUnifier (s₆.apply ta) (s₆.apply tb) = .ok s ∧ t = s.apply ta := by
  refine run_bind_eq_ok.trans ?_
  simp only [run_bind_eq_ok, run_pure, run_ofExcept_eq_ok, Prod.mk.injEq, Except.ok.injEq]
  constructor
  · rintro ⟨⟨s₁, tc⟩, n₁, h₁, ⟨s₂, ta⟩, n₂, h₂, ⟨s₃, tb⟩, k₃, h₃, s₄, k₄, ⟨hc₁, rfl⟩,
      s₅, k₅, ⟨hc₂, rfl⟩, s₆, k₆, ⟨hm₁, rfl⟩, s₇, n₃, ⟨hm₂, rfl⟩, ⟨rfl, rfl⟩, rfl⟩
    exact ⟨s₁, tc, n₁, s₂, ta, n₂, s₃, tb, s₄, s₅, s₆, h₁, h₂, h₃, hc₁, hc₂, hm₁, hm₂, rfl⟩
  · rintro ⟨s₁, tc, n₁, s₂, ta, n₂, s₃, tb, s₄, s₅, s₆, h₁, h₂, h₃, hc₁, hc₂, hm₁, hm₂, rfl⟩
    exact ⟨_, _, h₁, _, _, h₂, _, _, h₃, _, _, ⟨hc₁, rfl⟩, _, _, ⟨hc₂, rfl⟩, _, _, ⟨hm₁, rfl⟩,
      _, _, ⟨hm₂, rfl⟩, ⟨rfl, rfl⟩, rfl⟩

/-- A `match` with no arms is refused. -/
theorem Expr.infer_matchOn_nil_run {e : Expr} :
    (Expr.infer order env (.matchOn e [])).run n = (.error .emptyMatch, n) := rfl

/-- A `match`: the scrutinee, then a result variable drawn after it, then the arms. -/
theorem Expr.infer_matchOn_run_iff {e : Expr} {arm : Pattern × Expr}
    {arms : List (Pattern × Expr)} :
    (Expr.infer order env (.matchOn e (arm :: arms))).run n = (.ok (s, t), m) ↔
      ∃ s₁ ts n₁, (Expr.infer order env e).run n = (.ok (s₁, ts), n₁) ∧
        (Expr.inferArms order env ts (.var n₁) s₁ (arm :: arms)).run (n₁ + 1) = (.ok s, m) ∧
        t = s.apply (.var n₁) := by
  refine run_bind_eq_ok.trans ?_
  simp only [run_bind_eq_ok, run_pure, run_fresh, Prod.mk.injEq, Except.ok.injEq]
  constructor
  · rintro ⟨⟨s₁, ts⟩, n₁, h₁, r, k, ⟨rfl, rfl⟩, s₂, m', harms, ⟨rfl, rfl⟩, rfl⟩
    exact ⟨s₁, ts, n₁, h₁, harms, rfl⟩
  · rintro ⟨s₁, ts, n₁, h₁, harms, rfl⟩
    exact ⟨_, _, h₁, _, _, ⟨rfl, rfl⟩, _, _, harms, ⟨rfl, rfl⟩, rfl⟩

/-- A `let`: the binding, then the body in the environment it gives. -/
theorem Expr.infer_letIn_run_iff {kind : BindingKind} {x : String} {e₁ e₂ : Expr} :
    (Expr.infer order env (.letIn kind x e₁ e₂)).run n = (.ok (s, t), m) ↔
      ∃ s₁ env₁ n₁ s₂ tb,
        (inferBinding env kind x (Expr.infer order · e₁)).run n = (.ok (s₁, env₁), n₁) ∧
        (Expr.infer order env₁ e₂).run n₁ = (.ok (s₂, tb), m) ∧ s₁.compose s₂ = .ok s ∧
        t = s.apply tb := by
  refine run_bind_eq_ok.trans ?_
  simp only [run_bind_eq_ok, run_pure, run_ofExcept_eq_ok, Prod.mk.injEq, Except.ok.injEq]
  constructor
  · rintro ⟨⟨s₁, env₁⟩, n₁, h₁, ⟨s₂, tb⟩, k, h₂, s₃, n₂, ⟨hc, rfl⟩, ⟨rfl, rfl⟩, rfl⟩
    exact ⟨s₁, env₁, n₁, s₂, tb, h₁, h₂, hc, rfl⟩
  · rintro ⟨s₁, env₁, n₁, s₂, tb, h₁, h₂, hc, rfl⟩
    exact ⟨_, _, h₁, _, _, h₂, _, _, ⟨hc, rfl⟩, ⟨rfl, rfl⟩, rfl⟩

/-- A function: its parameter pattern, then the body in the environment the pattern extended. -/
theorem Expr.infer_lam_run_iff {p : Pattern} {body : Expr} :
    (Expr.infer order env (.lam p body)).run n = (.ok (s, t), m) ↔
      ∃ penv tp n₁ tb, (p.infer env).run n = (.ok (penv, tp), n₁) ∧
        (Expr.infer order penv body).run n₁ = (.ok (s, tb), m) ∧
        t = s.apply (.arrow tp tb) := by
  refine run_bind_eq_ok.trans ?_
  simp only [run_bind_eq_ok, run_pure, Prod.mk.injEq, Except.ok.injEq]
  constructor
  · rintro ⟨⟨penv, tp⟩, n₁, h₁, ⟨s₁, tb⟩, k, h₂, ⟨rfl, rfl⟩, rfl⟩
    exact ⟨penv, tp, n₁, tb, h₁, h₂, rfl⟩
  · rintro ⟨penv, tp, n₁, tb, h₁, h₂, rfl⟩
    exact ⟨_, _, h₁, _, _, h₂, ⟨rfl, rfl⟩, rfl⟩

/-- The environment a component of a tuple or of `::` is typed in: `env` under the substitution
`s` of the components before it, or `env` itself. -/
def componentEnv (order : ComponentOrder) (env : TypeEnv) (s : Subst) : TypeEnv :=
  match order with
  | .sequential => env.applySubst s
  | .independent => env

@[simp] theorem componentEnv_sequential : componentEnv .sequential env s = env.applySubst s := rfl

@[simp] theorem componentEnv_independent : componentEnv .independent env s = env := rfl

/-- One component: typed in its environment, then its substitution merged into `s`. -/
theorem inferComponent_run_iff {inferIn : TypeEnv → InferM (Subst × Ty)} {r : Subst} :
    (inferComponent order env s inferIn).run n = (.ok (r, t), m) ↔
      ∃ s', (inferIn (componentEnv order env s)).run n = (.ok (s', t), m) ∧
        s.compose s' = .ok r := by
  refine run_bind_eq_ok.trans ?_
  simp only [run_bind_eq_ok, run_pure, run_ofExcept_eq_ok, Prod.mk.injEq, Except.ok.injEq]
  constructor
  · rintro ⟨⟨s', t'⟩, k, hrun, r', m', ⟨hr, rfl⟩, ⟨rfl, rfl⟩, rfl⟩
    exact ⟨s', hrun, hr⟩
  · rintro ⟨s', hrun, hr⟩
    exact ⟨_, _, hrun, _, _, ⟨hr, rfl⟩, ⟨rfl, rfl⟩, rfl⟩

/-- A tuple: its components from the empty substitution. -/
theorem Expr.infer_tuple_run_iff {items : List Expr} :
    (Expr.infer order env (.tuple items)).run n = (.ok (s, t), m) ↔
      ∃ ts, (Expr.inferItems order env .empty items).run n = (.ok (s, ts), m) ∧
        t = .tuple (ts.map s.apply) := by
  refine run_bind_eq_ok.trans ?_
  simp only [run_pure, Prod.mk.injEq, Except.ok.injEq]
  constructor
  · rintro ⟨⟨s₁, ts⟩, k, h₁, ⟨rfl, rfl⟩, rfl⟩
    exact ⟨ts, h₁, rfl⟩
  · rintro ⟨ts, h₁, rfl⟩
    exact ⟨_, _, h₁, ⟨rfl, rfl⟩, rfl⟩

/-- `h :: tl`: the two components, then the tail's type unified with the list of the head's. -/
theorem Expr.infer_cons_run_iff {hd tl : Expr} :
    (Expr.infer order env (.cons hd tl)).run n = (.ok (s, t), m) ↔
      ∃ s₁ th n₁ s₂ tt,
        (inferComponent order env .empty (Expr.infer order · hd)).run n = (.ok (s₁, th), n₁) ∧
        (inferComponent order env s₁ (Expr.infer order · tl)).run n₁ = (.ok (s₂, tt), m) ∧
        s₂.mergeUnifier (.list (s₂.apply th)) (s₂.apply tt) = .ok s ∧
        t = s.apply (s₂.apply tt) := by
  refine run_bind_eq_ok.trans ?_
  simp only [run_bind_eq_ok, run_pure, run_ofExcept_eq_ok, Prod.mk.injEq, Except.ok.injEq]
  constructor
  · rintro ⟨⟨s₁, th⟩, n₁, h₁, ⟨s₂, tt⟩, k, h₂, s₃, n₂, ⟨hm, rfl⟩, ⟨rfl, rfl⟩, rfl⟩
    exact ⟨s₁, th, n₁, s₂, tt, h₁, h₂, hm, rfl⟩
  · rintro ⟨s₁, th, n₁, s₂, tt, h₁, h₂, hm, rfl⟩
    exact ⟨_, _, h₁, _, _, h₂, _, _, ⟨hm, rfl⟩, ⟨rfl, rfl⟩, rfl⟩

/-- An application: the function, the argument in the environment the function left, then a
result variable drawn after both, with the function's type unified with an arrow to it. -/
theorem Expr.infer_app_run_iff {f a : Expr} :
    (Expr.infer order env (.app f a)).run n = (.ok (s, t), m) ↔
      ∃ s₁ tf n₁ s₂ ta n₂ s₃, (Expr.infer order env f).run n = (.ok (s₁, tf), n₁) ∧
        (Expr.infer order (env.applySubst s₁) a).run n₁ = (.ok (s₂, ta), n₂) ∧
        s₁.compose s₂ = .ok s₃ ∧
        s₃.mergeUnifier (s₃.apply tf) (.arrow (s₃.apply ta) (.var n₂)) = .ok s ∧
        t = s.apply (.var n₂) ∧ m = n₂ + 1 := by
  refine run_bind_eq_ok.trans ?_
  simp only [run_bind_eq_ok, run_pure, run_fresh, run_ofExcept_eq_ok,
    Prod.mk.injEq, Except.ok.injEq]
  constructor
  · rintro ⟨⟨s₁, tf⟩, n₁, h₁, ⟨s₂, ta⟩, n₂, h₂, r, k₃, ⟨rfl, rfl⟩, s₃, k₄, ⟨hc, rfl⟩,
      s₄, n₃, ⟨hm, rfl⟩, ⟨rfl, rfl⟩, rfl⟩
    exact ⟨s₁, tf, n₁, s₂, ta, n₂, s₃, h₁, h₂, hc, hm, rfl, rfl⟩
  · rintro ⟨s₁, tf, n₁, s₂, ta, n₂, s₃, h₁, h₂, hc, hm, rfl, rfl⟩
    exact ⟨_, _, h₁, _, _, h₂, _, _, ⟨rfl, rfl⟩, _, _, ⟨hc, rfl⟩, _, _, ⟨hm, rfl⟩, ⟨rfl, rfl⟩,
      rfl⟩

/-- A data constructor is refused. -/
theorem Expr.infer_ctor_run {x : String} {arg : Option Expr} :
    (Expr.infer order env (.ctor x arg)).run n = (.error (.constructorExpr x), n) := rfl

/-- A polymorphic variant is refused. -/
theorem Expr.infer_variant_run {tag : String} {arg : Option Expr} :
    (Expr.infer order env (.variant tag arg)).run n = (.error (.variantExpr tag), n) := rfl

variable {ts r : Ty} {s₀ : Subst}

/-- No arms left: the substitution so far. -/
theorem Expr.inferArms_nil_run_iff :
    (Expr.inferArms order env ts r s₀ []).run n = (.ok s, m) ↔ s = s₀ ∧ m = n := by
  show (pure s₀ : InferM Subst).run n = _ ↔ _
  simp only [run_pure, Prod.mk.injEq, Except.ok.injEq]
  exact ⟨fun ⟨h₁, h₂⟩ => ⟨h₁.symm, h₂.symm⟩, fun ⟨h₁, h₂⟩ => ⟨h₁.symm, h₂.symm⟩⟩

/-- One arm of a `match`: its pattern in the environment under the substitution so far, unified
with the scrutinee's type; its body in the pattern's environment under that unifier, composed
in and unified with the result type; then the other arms. -/
theorem Expr.inferArms_cons_run_iff {p : Pattern} {body : Expr}
    {rest : List (Pattern × Expr)} :
    (Expr.inferArms order env ts r s₀ ((p, body) :: rest)).run n = (.ok s, m) ↔
      ∃ penv tp n₁ s₁ s₂ tb n₂ s₃ s₄,
        (p.infer (env.applySubst s₀)).run n = (.ok (penv, tp), n₁) ∧
        s₀.mergeUnifier (s₀.apply ts) (s₀.apply tp) = .ok s₁ ∧
        (Expr.infer order (penv.applySubst s₁) body).run n₁ = (.ok (s₂, tb), n₂) ∧
        s₁.compose s₂ = .ok s₃ ∧ s₃.mergeUnifier (s₃.apply r) (s₃.apply tb) = .ok s₄ ∧
        (Expr.inferArms order env ts r s₄ rest).run n₂ = (.ok s, m) := by
  refine run_bind_eq_ok.trans ?_
  simp only [run_bind_eq_ok, run_ofExcept_eq_ok]
  constructor
  · rintro ⟨⟨penv, tp⟩, k₁, h₁, s₁, n₁, ⟨hm₁, rfl⟩, ⟨s₂, tb⟩, k₂, h₂, s₃, k₃, ⟨hc, rfl⟩,
      s₄, n₂, ⟨hm₂, rfl⟩, hrest⟩
    exact ⟨penv, tp, _, s₁, s₂, tb, _, s₃, s₄, h₁, hm₁, h₂, hc, hm₂, hrest⟩
  · rintro ⟨penv, tp, n₁, s₁, s₂, tb, n₂, s₃, s₄, h₁, hm₁, h₂, hc, hm₂, hrest⟩
    exact ⟨_, _, h₁, _, _, ⟨hm₁, rfl⟩, _, _, h₂, _, _, ⟨hc, rfl⟩, _, _, ⟨hm₂, rfl⟩, hrest⟩

/-- No components left: the substitution so far and no types. -/
theorem Expr.inferItems_nil_run_iff {ts : List Ty} :
    (Expr.inferItems order env s₀ []).run n = (.ok (s, ts), m) ↔ s = s₀ ∧ ts = [] ∧ m = n := by
  show (pure (s₀, []) : InferM (Subst × List Ty)).run n = _ ↔ _
  simp only [run_pure, Prod.mk.injEq, Except.ok.injEq]
  exact ⟨fun ⟨⟨h₁, h₂⟩, h₃⟩ => ⟨h₁.symm, h₂.symm, h₃.symm⟩,
    fun ⟨h₁, h₂, h₃⟩ => ⟨⟨h₁.symm, h₂.symm⟩, h₃.symm⟩⟩

/-- The components of a tuple: the first merged into the substitution so far, then the rest. -/
theorem Expr.inferItems_cons_run_iff {e : Expr} {es : List Expr} {ts : List Ty} :
    (Expr.inferItems order env s₀ (e :: es)).run n = (.ok (s, ts), m) ↔
      ∃ s₁ t₁ n₁ ts₁,
        (inferComponent order env s₀ (Expr.infer order · e)).run n = (.ok (s₁, t₁), n₁) ∧
        (Expr.inferItems order env s₁ es).run n₁ = (.ok (s, ts₁), m) ∧ ts = t₁ :: ts₁ := by
  refine run_bind_eq_ok.trans ?_
  simp only [run_bind_eq_ok, run_pure, Prod.mk.injEq, Except.ok.injEq]
  constructor
  · rintro ⟨⟨s₁, t₁⟩, n₁, h₁, ⟨s₂, ts₁⟩, k, h₂, ⟨rfl, rfl⟩, rfl⟩
    exact ⟨s₁, t₁, n₁, ts₁, h₁, h₂, rfl⟩
  · rintro ⟨s₁, t₁, n₁, ts₁, h₁, h₂, rfl⟩
    exact ⟨_, _, h₁, _, _, h₂, ⟨rfl, rfl⟩, rfl⟩

end Constructs

end HindleyMilner
