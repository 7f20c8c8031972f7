import HindleyMilner.Syntax.Expr
/-!
# Declarations

A program is a list of top-level declarations: value bindings, expressions evaluated for their
effect, and type definitions (which inference rejects).
-/

namespace HindleyMilner

/-- A top-level declaration. -/
inductive Decl where
  /-- `let x = e` or `let rec x = e` at the top level. -/
  | value (kind : BindingKind) (name : String) (value : Expr)
  /-- An expression at the top level. -/
  | expr (e : Expr)
  /-- `type name = C₁ | ...`, a data type with the given constructors. -/
  | typeDef (name : String) (ctors : List String)
  deriving Repr

end HindleyMilner
