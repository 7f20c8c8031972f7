import HindleyMilner.Type.Printer
/-!
# Type errors

Inference stops at the first error. An error is one of a few causes, each carrying the names or
types involved; `TypeError.kind` sorts the causes into five kinds and `TypeError.message` words
them.
-/

namespace HindleyMilner

/-- Why a program has no type. -/
inductive TypeError where
  /-- The variable `v` would have to equal a type `t` that contains it. -/
  | occursCheck (v : Nat) (t : Ty)
  /-- A name is used where nothing binds it. -/
  | unboundVariable (name : String)
  /-- Two types cannot be made equal. -/
  | mismatch (left right : Ty)
  /-- A constructor pattern: patterns over declared data types are not typed. -/
  | constructorPattern (name : String)
  /-- A match with no arms has no type to give. -/
  | emptyMatch
  /-- A constructor application: declared data types are not typed. -/
  | constructorExpr (name : String)
  /-- A polymorphic variant: variants are not typed. -/
  | variantExpr (tag : String)
  /-- A type definition: declarations of data types are not typed. -/
  | typeDefinition (name : String)
  deriving DecidableEq, Repr

/-- The five kinds of type error. -/
inductive ErrorKind where
  /-- A type would have to contain itself. -/
  | occursCheck
  /-- A name is not bound. -/
  | unboundVariable
  /-- Two types do not unify. -/
  | unificationFailure
  /-- A pattern, or a match, of a form that is not typed. -/
  | patternMatching
  /-- An expression or declaration of a form that is not typed. -/
  | notImplemented
  deriving DecidableEq, Repr

namespace TypeError

/-- The kind of an error. -/
def kind : TypeError → ErrorKind
  | .occursCheck _ _ => .occursCheck
  | .unboundVariable _ => .unboundVariable
  | .mismatch _ _ => .unificationFailure
  | .constructorPattern _ | .emptyMatch => .patternMatching
  | .constructorExpr _ | .variantExpr _ | .typeDefinition _ => .notImplemented

/-- The text of an error. A pattern error reads "unsupported pattern: " and the reason, and
an error about a form that is not typed reads "not implemented: " and the form. -/
def message : TypeError → String
  | .occursCheck v t => "cannot construct infinite type: " ++ Ty.varName v ++ " = " ++ t.pretty
  | .unboundVariable name => "unbound variable: " ++ name
  | .mismatch a b => "cannot unify " ++ a.pretty ++ " with " ++ b.pretty
  | .constructorPattern name => "unsupported pattern: constructor pattern `" ++ name ++ "`"
  | .emptyMatch => "unsupported pattern: match expression without clauses"
  | .constructorExpr name => "not implemented: constructor `" ++ name ++ "`"
  | .variantExpr tag => "not implemented: polymorphic variant `" ++ tag ++ "`"
  | .typeDefinition name => "not implemented: type definition `" ++ name ++ "`"

end TypeError

end HindleyMilner
