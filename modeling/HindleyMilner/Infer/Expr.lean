import HindleyMilner.Infer.Pattern
import HindleyMilner.Syntax.Expr
/-!
# Typing expressions

Algorithm W: `Expr.infer order env e` gives a substitution and the type of `e` in the
environment `env` under that substitution, or the first type error.

Subexpressions are typed left to right. After each one, its substitution is applied to the
environment of the ones after it; the substitutions are composed, and the equations the
construct imposes are unified through the composition. A `let` generalizes the type of its
value over the variables not free in the environment; a `let rec` binds its name to a fresh
placeholder while typing the value and unifies the two afterwards.

The components of a tuple and the two operands of `::` are typed in the environment updated by
the components before them (`ComponentOrder.sequential`) or all in the same environment
(`ComponentOrder.independent`); in both orders the substitutions are composed after each
component.
-/

namespace HindleyMilner

/-- The operand and result types of an operator; a comparison draws one fresh type for both
operands. -/
def BinOp.signature (op : BinOp) : InferM (Ty × Ty × Ty) :=
  match op.opClass with
  | .arithmetic => return (.int, .int, .int)
  | .comparison => do
    let a ← fresh
    return (a, a, .bool)
  | .boolean => return (.bool, .bool, .bool)

/-- Types one component of a tuple or of `::` with `inferIn`, in the environment that `order`
prescribes, and merges its substitution into `s`, that of the components before it. -/
def inferComponent (order : ComponentOrder) (env : TypeEnv) (s : Subst)
    (inferIn : TypeEnv → InferM (Subst × Ty)) : InferM (Subst × Ty) := do
  let env' := match order with
    | .sequential => env.applySubst s
    | .independent => env
  let (s', t) ← inferIn env'
  return (← InferM.ofExcept (s.compose s'), t)

/-- Types the value of a binding of `name` with `inferValue` and gives the environment that
binds `name` to the generalized type. A recursive binding sees `name` at a fresh placeholder
type, which is then unified with the value's type. -/
def inferBinding (env : TypeEnv) (kind : BindingKind) (name : String)
    (inferValue : TypeEnv → InferM (Subst × Ty)) : InferM (Subst × TypeEnv) :=
  match kind with
  | .plain => do
    let (s1, t) ← inferValue env
    let env1 := env.applySubst s1
    return (s1, env1.extend name (env1.generalize t))
  | .recursive => do
    let p ← fresh
    let env1 := env.extend name (.mono p)
    let (s1, t) ← inferValue env1
    let s2 ← InferM.ofExcept (unify (s1.apply p) t)
    let s ← InferM.ofExcept (s1.compose s2)
    let env2 := env1.applySubst s
    return (s, env2.extend name (env2.generalizeRec (s.apply t) name))

mutual
/-- The substitution and type that Algorithm W infers for an expression. -/
def Expr.infer (order : ComponentOrder) (env : TypeEnv) : Expr → InferM (Subst × Ty)
  | .lit c => return (Subst.empty, ← c.infer)
  | .var name =>
    match env.find? name with
    | some sc => return (Subst.empty, ← sc.instantiate)
    | none => throw (.unboundVariable name)
  | .binop op l r => do
    let (s1, tl) ← Expr.infer order env l
    let (s2, tr) ← Expr.infer order (env.applySubst s1) r
    let (el, er, res) ← op.signature
    let s ← InferM.ofExcept (s1.compose s2)
    let s ← InferM.ofExcept (s.mergeUnifier (s.apply tl) (s.apply el))
    let s ← InferM.ofExcept (s.mergeUnifier (s.apply tr) (s.apply er))
    return (s, s.apply res)
  | .ite c t e => do
    let (s1, tc) ← Expr.infer order env c
    let env1 := env.applySubst s1
    let (s2, tt) ← Expr.infer order env1 t
    let env2 := env1.applySubst s2
    let (s3, te) ← Expr.infer order env2 e
    let s ← InferM.ofExcept (s1.compose s2)
    let s ← InferM.ofExcept (s.compose s3)
    let s ← InferM.ofExcept (s.mergeUnifier (s.apply tc) .bool)
    let s ← InferM.ofExcept (s.mergeUnifier (s.apply tt) (s.apply te))
    return (s, s.apply tt)
  | .matchOn _ [] => throw .emptyMatch
  | .matchOn scrutinee arms => do
    let (s, ts) ← Expr.infer order env scrutinee
    let r ← fresh
    let s ← Expr.inferArms order env ts r s arms
    return (s, s.apply r)
  | .letIn kind name value body => do
    let (s1, env1) ← inferBinding env kind name (Expr.infer order · value)
    let (s2, tb) ← Expr.infer order env1 body
    let s ← InferM.ofExcept (s1.compose s2)
    return (s, s.apply tb)
  | .lam p body => do
    let (penv, tp) ← p.infer env
    let (s, tb) ← Expr.infer order penv body
    return (s, s.apply (.arrow tp tb))
  | .tuple items => do
    let (s, ts) ← Expr.inferItems order env Subst.empty items
    return (s, .tuple (ts.map s.apply))
  | .cons h t => do
    let (s, th) ← inferComponent order env Subst.empty (Expr.infer order · h)
    let (s1, tt) ← inferComponent order env s (Expr.infer order · t)
    let headTy := s1.apply th
    let tailTy := s1.apply tt
    let s ← InferM.ofExcept (s1.mergeUnifier (.list headTy) tailTy)
    return (s, s.apply tailTy)
  | .app f a => do
    let (s1, tf) ← Expr.infer order env f
    let (s2, ta) ← Expr.infer order (env.applySubst s1) a
    let r ← fresh
    let s ← InferM.ofExcept (s1.compose s2)
    let s ← InferM.ofExcept (s.mergeUnifier (s.apply tf) (.arrow (s.apply ta) r))
    return (s, s.apply r)
  | .ctor name _ => throw (.constructorExpr name)
  | .variant tag _ => throw (.variantExpr tag)
/-- Types the arms of a match in order, extending `s`: each pattern is typed in `env` under
`s` and unified with the scrutinee's type, and each body, typed in the pattern's environment
under `s`, is unified with the result type. -/
def Expr.inferArms (order : ComponentOrder) (env : TypeEnv) (scrutTy resultTy : Ty) (s : Subst) :
    List (Pattern × Expr) → InferM Subst
  | [] => return s
  | (p, body) :: rest => do
    let (penv, tp) ← p.infer (env.applySubst s)
    let s ← InferM.ofExcept (s.mergeUnifier (s.apply scrutTy) (s.apply tp))
    let (s2, tb) ← Expr.infer order (penv.applySubst s) body
    let s ← InferM.ofExcept (s.compose s2)
    let s ← InferM.ofExcept (s.mergeUnifier (s.apply resultTy) (s.apply tb))
    Expr.inferArms order env scrutTy resultTy s rest
/-- Types the components of a tuple in order, extending `s`; gives their types as inferred. -/
def Expr.inferItems (order : ComponentOrder) (env : TypeEnv) (s : Subst) :
    List Expr → InferM (Subst × List Ty)
  | [] => return (s, [])
  | e :: es => do
    let (s, t) ← inferComponent order env s (Expr.infer order · e)
    let (s, ts) ← Expr.inferItems order env s es
    return (s, t :: ts)
end

end HindleyMilner
