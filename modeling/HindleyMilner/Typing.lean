import HindleyMilner.Env
import HindleyMilner.Syntax.Decl
/-!
# The typing rules

The declarative Hindley–Milner rules for the language, stated without substitutions, fresh
variables or an order of work, so that inference can be compared with them: inference is
sound when every type it infers is derivable here, and complete when it finds a type for every
expression that has one here, and the most general one.

* A constant has its base type; `[]` has every list type.
* A variable has every instance of its scheme.
* An operator's operands and result have the types of its class; the two operands of a
  comparison have one type.
* A pattern, typed at the type of the values it matches, binds its variables at monotypes,
  later bindings of a name overriding earlier ones; constructor patterns have no type.
* `let` generalizes the value's type over the variables not free in the environment; `let rec`
  types the value with its own name bound at the value's type, and generalizes over the
  variables not free in the rest of the environment.
* Constructor applications and variants have no type.
-/

namespace HindleyMilner

/-- `sc.Instance t`: `t` is the body of `sc` with its quantified variables replaced by types
and every other variable kept. -/
def Scheme.Instance (sc : Scheme) (t : Ty) : Prop :=
  ∃ f : Nat → Ty, (∀ v, v ∉ sc.vars → f v = .var v) ∧ sc.ty.substWith f = t

/-- The environment with the monomorphic bindings `Δ` added in order, so that a later binding
of a name overrides an earlier one. -/
def TypeEnv.bindAll (env : TypeEnv) (Δ : List (String × Ty)) : TypeEnv :=
  Δ.foldl (fun e b => e.extend b.1 (.mono b.2)) env

/-- `ConstType c t`: the constant `c` has type `t`. -/
inductive ConstType : Const → Ty → Prop
  | int (v : Int) : ConstType (.int v) .int
  | bool (b : Bool) : ConstType (.bool b) .bool
  | str (s : String) : ConstType (.str s) .string
  | unit : ConstType .unit .unit
  | nil (t : Ty) : ConstType .nil (.list t)

/-- `OpType op l r res`: the operator takes operands of types `l` and `r` to a result of type
`res`. -/
inductive OpType : BinOp → Ty → Ty → Ty → Prop
  | arithmetic {op : BinOp} : op.opClass = .arithmetic → OpType op .int .int .int
  | comparison {op : BinOp} (t : Ty) : op.opClass = .comparison → OpType op t t .bool
  | boolean {op : BinOp} : op.opClass = .boolean → OpType op .bool .bool .bool

mutual
/-- `PatType p t Δ`: the pattern `p` matches values of type `t` and binds the names of `Δ` at
their types, in order. -/
inductive PatType : Pattern → Ty → List (String × Ty) → Prop
  | any (t : Ty) : PatType .any t []
  | lit {c : Const} {t : Ty} : ConstType c t → PatType (.lit c) t []
  | var (x : String) (t : Ty) : PatType (.var x) t [(x, t)]
  | cons {h tl : Pattern} {t : Ty} {Δ₁ Δ₂ : List (String × Ty)} :
      PatType h t Δ₁ → PatType tl (.list t) Δ₂ → PatType (.cons h tl) (.list t) (Δ₁ ++ Δ₂)
  | tuple {ps : List Pattern} {ts : List Ty} {Δ : List (String × Ty)} :
      PatTypes ps ts Δ → PatType (.tuple ps) (.tuple ts) Δ
/-- `PatTypes ps ts Δ`: the patterns match values of the types `ts`, one by one, and bind
`Δ`, the bindings of each in turn. -/
inductive PatTypes : List Pattern → List Ty → List (String × Ty) → Prop
  | nil : PatTypes [] [] []
  | cons {p : Pattern} {t : Ty} {Δ₁ : List (String × Ty)} {ps : List Pattern} {ts : List Ty}
      {Δ₂ : List (String × Ty)} :
      PatType p t Δ₁ → PatTypes ps ts Δ₂ → PatTypes (p :: ps) (t :: ts) (Δ₁ ++ Δ₂)
end

mutual
/-- `HasType env e t`: in the environment `env`, the expression `e` has type `t`. -/
inductive HasType : TypeEnv → Expr → Ty → Prop
  | lit {env : TypeEnv} {c : Const} {t : Ty} : ConstType c t → HasType env (.lit c) t
  | var {env : TypeEnv} {x : String} {sc : Scheme} {t : Ty} :
      env.find? x = some sc → sc.Instance t → HasType env (.var x) t
  | binop {env : TypeEnv} {op : BinOp} {l r : Expr} {tl tr res : Ty} :
      OpType op tl tr res → HasType env l tl → HasType env r tr →
      HasType env (.binop op l r) res
  | ite {env : TypeEnv} {c a b : Expr} {t : Ty} :
      HasType env c .bool → HasType env a t → HasType env b t → HasType env (.ite c a b) t
  | matchOn {env : TypeEnv} {e : Expr} {arms : List (Pattern × Expr)} {ts t : Ty} :
      arms ≠ [] → HasType env e ts → ArmsHaveType env ts arms t →
      HasType env (.matchOn e arms) t
  | letIn {env : TypeEnv} {x : String} {e₁ e₂ : Expr} {t₁ t : Ty} :
      HasType env e₁ t₁ → HasType (env.extend x (env.generalize t₁)) e₂ t →
      HasType env (.letIn .plain x e₁ e₂) t
  | letRec {env : TypeEnv} {x : String} {e₁ e₂ : Expr} {t₁ t : Ty} :
      HasType (env.extend x (.mono t₁)) e₁ t₁ →
      HasType (env.extend x (env.generalizeRec t₁ x)) e₂ t →
      HasType env (.letIn .recursive x e₁ e₂) t
  | lam {env : TypeEnv} {p : Pattern} {body : Expr} {tp tb : Ty} {Δ : List (String × Ty)} :
      PatType p tp Δ → HasType (env.bindAll Δ) body tb → HasType env (.lam p body) (.arrow tp tb)
  | tuple {env : TypeEnv} {items : List Expr} {ts : List Ty} :
      ItemsHaveTypes env items ts → HasType env (.tuple items) (.tuple ts)
  | cons {env : TypeEnv} {h tl : Expr} {t : Ty} :
      HasType env h t → HasType env tl (.list t) → HasType env (.cons h tl) (.list t)
  | app {env : TypeEnv} {f a : Expr} {ta t : Ty} :
      HasType env f (.arrow ta t) → HasType env a ta → HasType env (.app f a) t
/-- `ArmsHaveType env ts arms t`: every arm's pattern matches values of type `ts`, and its body
has type `t` in `env` with the pattern's bindings added. -/
inductive ArmsHaveType : TypeEnv → Ty → List (Pattern × Expr) → Ty → Prop
  | nil {env : TypeEnv} {ts t : Ty} : ArmsHaveType env ts [] t
  | cons {env : TypeEnv} {ts t : Ty} {p : Pattern} {body : Expr} {rest : List (Pattern × Expr)}
      {Δ : List (String × Ty)} :
      PatType p ts Δ → HasType (env.bindAll Δ) body t → ArmsHaveType env ts rest t →
      ArmsHaveType env ts ((p, body) :: rest) t
/-- `ItemsHaveTypes env items ts`: each expression has the corresponding type in `env`. -/
inductive ItemsHaveTypes : TypeEnv → List Expr → List Ty → Prop
  | nil {env : TypeEnv} : ItemsHaveTypes env [] []
  | cons {env : TypeEnv} {e : Expr} {t : Ty} {es : List Expr} {ts : List Ty} :
      HasType env e t → ItemsHaveTypes env es ts → ItemsHaveTypes env (e :: es) (t :: ts)
end

end HindleyMilner
