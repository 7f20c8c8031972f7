import HindleyMilner.Infer.Monad
import HindleyMilner.Subst.Compose
import HindleyMilner.Syntax.Pattern
/-!
# Typing constants and patterns

A constant has its base type; the empty list has a list type with a fresh element type.

A pattern is typed left to right, each part in the environment left by the parts before it; it
gives the environment extended by the names it binds, each at a monotype, and the type of the
values it matches. A wildcard matches a fresh type; a variable binds a fresh type; in
`head :: tail` the tail's type is unified with the list of the head's type, and the unifier is
applied to the environment and to the tail's type; a tuple pattern has the tuple of its parts'
types, as they were inferred. Constructor patterns are rejected.
-/

namespace HindleyMilner

/-- The type of a constant. -/
def Const.infer : Const → InferM Ty
  | .int _ => return .int
  | .bool _ => return .bool
  | .str _ => return .string
  | .unit => return .unit
  | .nil => return .list (← fresh)

mutual
/-- The environment extended by the names a pattern binds, and the type of what it matches. -/
def Pattern.infer (env : TypeEnv) : Pattern → InferM (TypeEnv × Ty)
  | .any => return (env, ← fresh)
  | .lit c => return (env, ← c.infer)
  | .var name => do
    let t ← fresh
    return (env.extend name (.mono t), t)
  | .cons h tl => do
    let (env1, th) ← h.infer env
    let (env2, tt) ← tl.infer env1
    let s ← InferM.ofExcept (unify (.list th) tt)
    return (env2.applySubst s, s.apply tt)
  | .tuple items => do
    let (env', ts) ← Pattern.inferList env items
    return (env', .tuple ts)
  | .ctor name _ => throw (.constructorPattern name)
/-- Types a list of patterns left to right, threading the environment. -/
def Pattern.inferList (env : TypeEnv) : List Pattern → InferM (TypeEnv × List Ty)
  | [] => return (env, [])
  | p :: ps => do
    let (env1, t) ← p.infer env
    let (env2, ts) ← Pattern.inferList env1 ps
    return (env2, t :: ts)
end

end HindleyMilner
