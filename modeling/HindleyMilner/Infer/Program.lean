import HindleyMilner.Infer.Expr
import HindleyMilner.Syntax.Decl
/-!
# Typing programs

A declaration turns the environment before it into the one after it: a value binding adds its
generalized scheme (its substitution is not kept), an expression is typed and leaves the
environment as it was, and a type definition is rejected. A program is typed declaration by
declaration from the empty environment and stops at the first error.
-/

namespace HindleyMilner

/-- The environment after a declaration. -/
def Decl.infer (order : ComponentOrder) (env : TypeEnv) : Decl → InferM TypeEnv
  | .value kind name rhs => do
    let (_, env1) ← inferBinding env kind name (Expr.infer order · rhs)
    return env1
  | .expr e => do
    let _ ← Expr.infer order env e
    return env
  | .typeDef name _ => throw (.typeDefinition name)

/-- The environment of the names a program binds, typing its declarations in order. -/
def inferProgram (order : ComponentOrder) (decls : List Decl) : InferM TypeEnv :=
  decls.foldlM (fun env d => d.infer order env) TypeEnv.empty

end HindleyMilner
