import HindleyMilner.Type.Scheme
/-!
# Printing types and schemes

Types print in the usual ML notation: `int list`, `'t3 * bool`, `('t0 -> 't1) -> 't0 list`.
Three binding strengths decide the parentheses: an arrow binds weakest and associates to the
right, a tuple (components joined by ` * `) binds tighter, and a list suffix binds tightest. The
empty tuple prints as `()`.

A plain type prints each variable as `'t` and its number. A scheme gives its quantified
variables letters instead, `'a`, `'b`, ..., `'z`, `'a1`, ..., in the order in which they first
occur in its body, so schemes that differ only in the numbering of their quantified variables
print alike.
-/

namespace HindleyMilner

/-- How tightly the surrounding context binds a type being printed. -/
inductive Prec where
  /-- At the top or to the right of an arrow: nothing needs parentheses. -/
  | arrow
  /-- Left of an arrow: an arrow needs parentheses. -/
  | tuple
  /-- A tuple component or list element: arrows and tuples of two or more need parentheses. -/
  | atom
  deriving DecidableEq, Repr

/-- The rank of a binding strength; a larger rank binds tighter. -/
def Prec.rank : Prec → Nat
  | .arrow => 0
  | .tuple => 1
  | .atom => 2

/-- Wraps `s` in parentheses when `wrap` holds. -/
def parenthesize (wrap : Bool) (s : String) : String :=
  if wrap then "(" ++ s ++ ")" else s

namespace Ty

mutual
/-- Prints a type in a context of strength `p`, printing the variable `v` as `name v`. -/
def render (name : Nat → String) : Prec → Ty → String
  | _, .prim q => q.name
  | _, .var v => name v
  | _, .list t => t.render name .atom ++ " list"
  | p, .tuple items =>
    if items.isEmpty then "()"
    else parenthesize (decide (1 < p.rank)) (" * ".intercalate (renderList name items))
  | p, .arrow a b =>
    parenthesize (decide (0 < p.rank)) (a.render name .tuple ++ " -> " ++ b.render name .arrow)
/-- Prints each type of a list as a tuple component. -/
def renderList (name : Nat → String) : List Ty → List String
  | [] => []
  | t :: ts => t.render name .atom :: renderList name ts
end

/-- The plain name of a type variable: `'t` and its number. -/
def varName (v : Nat) : String := "'t" ++ toString v

/-- Prints a type with every variable under its plain name. -/
def pretty (t : Ty) : String := t.render varName .arrow

end Ty

/-- The name given to the `i`-th quantified variable of a scheme: a letter from `a` to `z`,
followed by `i / 26` when that is not zero. -/
def letterName (i : Nat) : String :=
  let letter := String.singleton (Char.ofNat ('a'.toNat + i % 26))
  if i / 26 = 0 then letter else letter ++ toString (i / 26)

namespace Scheme

/-- The quantified variables that occur in the body, in order of first occurrence. -/
def namedVars (sc : Scheme) : List Nat := sc.ty.varsInOrder.filter (· ∈ sc.vars)

/-- How a scheme prints the variable `v`: a quantified variable gets the letter of its place
among `namedVars`, any other its plain name. -/
def varName (sc : Scheme) (v : Nat) : String :=
  match sc.namedVars.idxOf? v with
  | some i => "'" ++ letterName i
  | none => Ty.varName v

/-- Prints a scheme by printing its body with the quantified variables lettered. -/
def pretty (sc : Scheme) : String := sc.ty.render sc.varName .arrow

end Scheme

end HindleyMilner
