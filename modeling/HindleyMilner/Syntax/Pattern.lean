/-!
# Constants and patterns

Literal constants, shared by expressions and patterns, and the patterns of `fun` parameters and
`match` arms: the wildcard, constants, variables, `head :: tail`, tuples, and constructor
patterns (which inference rejects, since data type declarations are not typed).
-/

namespace HindleyMilner

/-- A literal constant. -/
inductive Const where
  /-- A 64-bit integer literal. -/
  | int (v : Int)
  /-- A boolean literal. -/
  | bool (b : Bool)
  /-- A string literal. -/
  | str (s : String)
  /-- The unit value `()`. -/
  | unit
  /-- The empty list `[]`. -/
  | nil
  deriving DecidableEq, Repr

/-- A pattern. -/
inductive Pattern where
  /-- The wildcard `_`, matching anything and binding nothing. -/
  | any
  /-- A constant, matching only itself. -/
  | lit (c : Const)
  /-- A variable, binding the matched value. -/
  | var (name : String)
  /-- A non-empty list `head :: tail`. -/
  | cons (head tail : Pattern)
  /-- A tuple of patterns. -/
  | tuple (items : List Pattern)
  /-- A data constructor with an optional argument. -/
  | ctor (name : String) (arg : Option Pattern)
  deriving Repr

namespace Pattern

mutual
/-- The names that the pattern binds, left to right, repetitions kept. -/
def boundNames : Pattern → List String
  | .any => []
  | .lit _ => []
  | .var name => [name]
  | .cons h t => h.boundNames ++ t.boundNames
  | .tuple items => boundNamesList items
  | .ctor _ none => []
  | .ctor _ (some p) => p.boundNames
/-- The names bound by a list of patterns, left to right. -/
def boundNamesList : List Pattern → List String
  | [] => []
  | p :: ps => p.boundNames ++ boundNamesList ps
end

end Pattern

end HindleyMilner
