import HindleyMilner.Syntax.Pattern
/-!
# Expressions

The expressions of the language: constants, variables, binary operators, conditionals, `match`,
`let` and `let rec`, functions of one pattern, tuples, `::`, application, and two forms that
inference rejects (constructor applications and polymorphic variants).

Each binary operator belongs to one class, which fixes its type: arithmetic operators take and
give `int`, comparisons take two operands of one (any) type and give `bool`, and the boolean
connectives take and give `bool`.
-/

namespace HindleyMilner

/-- The classes of binary operators. -/
inductive OpClass where
  /-- `int -> int -> int`. -/
  | arithmetic
  /-- `'a -> 'a -> bool`. -/
  | comparison
  /-- `bool -> bool -> bool`. -/
  | boolean
  deriving DecidableEq, Repr

/-- A binary operator. -/
inductive BinOp where
  /-- Addition, `+`. -/
  | add
  /-- Subtraction, `-`. -/
  | sub
  /-- Multiplication, `*`. -/
  | mul
  /-- Division, `/`. -/
  | div
  /-- Remainder, `mod`. -/
  | mod
  /-- Equality, `=`. -/
  | eq
  /-- Inequality, `<>`. -/
  | ne
  /-- Less than, `<`. -/
  | lt
  /-- At most, `<=`. -/
  | le
  /-- Greater than, `>`. -/
  | gt
  /-- At least, `>=`. -/
  | ge
  /-- Conjunction, `&&`. -/
  | and
  /-- Disjunction, `||`. -/
  | or
  deriving DecidableEq, Repr

namespace BinOp

/-- Every operator, in the order of the constructors. -/
def all : List BinOp := [.add, .sub, .mul, .div, .mod, .eq, .ne, .lt, .le, .gt, .ge, .and, .or]

/-- The class of an operator. -/
def opClass : BinOp → OpClass
  | .add | .sub | .mul | .div | .mod => .arithmetic
  | .eq | .ne | .lt | .le | .gt | .ge => .comparison
  | .and | .or => .boolean

/-- How an operator is written. -/
def symbol : BinOp → String
  | .add => "+"
  | .sub => "-"
  | .mul => "*"
  | .div => "/"
  | .mod => "mod"
  | .eq => "="
  | .ne => "<>"
  | .lt => "<"
  | .le => "<="
  | .gt => ">"
  | .ge => ">="
  | .and => "&&"
  | .or => "||"

/-- The operator written `s`, if there is one. -/
def ofSymbol? (s : String) : Option BinOp := all.find? (·.symbol = s)

end BinOp

/-- Whether a `let` may refer to the name it binds. -/
inductive BindingKind where
  /-- `let x = e`: `x` is not in scope in `e`. -/
  | plain
  /-- `let rec x = e`: `x` is in scope in `e`, at one type. -/
  | recursive
  deriving DecidableEq, Repr

/-- An expression. -/
inductive Expr where
  /-- A constant. -/
  | lit (c : Const)
  /-- A variable. -/
  | var (name : String)
  /-- `l op r`. -/
  | binop (op : BinOp) (l r : Expr)
  /-- `if c then t else e`. -/
  | ite (c t e : Expr)
  /-- `match scrutinee with p₁ -> e₁ | ...`; the arms are tried in order. -/
  | matchOn (scrutinee : Expr) (arms : List (Pattern × Expr))
  /-- `let x = value in body`, or `let rec`. -/
  | letIn (kind : BindingKind) (name : String) (value body : Expr)
  /-- `fun p -> body`. -/
  | lam (param : Pattern) (body : Expr)
  /-- A tuple. -/
  | tuple (items : List Expr)
  /-- `head :: tail`. -/
  | cons (head tail : Expr)
  /-- Application of a function to one argument. -/
  | app (fn arg : Expr)
  /-- A data constructor with an optional argument. -/
  | ctor (name : String) (arg : Option Expr)
  /-- A polymorphic variant with an optional argument. -/
  | variant (tag : String) (arg : Option Expr)
  deriving Repr

namespace Expr

/-- The list literal `[e₁; ...; eₙ]`: `e₁ :: ... :: eₙ :: []`. -/
def ofList : List Expr → Expr
  | [] => .lit .nil
  | e :: es => .cons e (ofList es)

/-- `f a₁ ... aₙ`: `f` applied to the arguments one at a time, from the left. -/
def applyAll (f : Expr) (args : List Expr) : Expr := args.foldl .app f

end Expr

end HindleyMilner
