import HindleyMilner.Subst.Basic
/-!
# Type environments

A type environment gives each name in scope a scheme. Entries are kept in ascending order of
the name (by code point), which is also the order in which an environment is listed.

Applying a substitution to an environment applies it to each scheme's body, with the scheme's own
quantified variables left out of the substitution; the quantified variables are not renamed,
so a target that mentions one of them is captured by the scheme.

Generalizing a type quantifies its variables that are not free in the environment, in order of
first occurrence; for a recursive binding the name being bound is left out of the environment
first.
-/

namespace HindleyMilner

/-- A type environment: names in scope and their schemes, in ascending order of the name. -/
abbrev TypeEnv := SortedMap String Scheme

namespace TypeEnv

/-- The environment with no names. -/
def empty : TypeEnv := ⟨[]⟩

/-- The environment of the given bindings; of two bindings of one name the later wins. -/
def ofList (bs : List (String × Scheme)) : TypeEnv := SortedMap.ofList bs

/-- Binds `name` to `sc`, shadowing an earlier binding of it. -/
def extend (env : TypeEnv) (name : String) (sc : Scheme) : TypeEnv := env.insert name sc

/-- Drops the binding of `name`, if any. -/
def remove (env : TypeEnv) (name : String) : TypeEnv := env.erase name

/-- The variables free in some scheme of the environment, ascending, each once. -/
def freeVars (env : TypeEnv) : List Nat := varSet (env.entries.flatMap (·.2.freeVars))

/-- Applies `s` to every scheme, leaving each scheme's quantified variables out of `s`. -/
def applySubst (env : TypeEnv) (s : Subst) : TypeEnv :=
  env.mapValues (fun sc => ⟨sc.vars, (s.without sc.vars).apply sc.ty⟩)

/-- The scheme that quantifies the variables of `t` not free in the environment, in order of
first occurrence. -/
def generalize (env : TypeEnv) (t : Ty) : Scheme :=
  let free := env.freeVars
  ⟨t.varsInOrder.filter (· ∉ free), t⟩

/-- Generalizes the type of a recursive binding of `name`: the binding's own placeholder in the
environment does not keep its variables from being quantified. -/
def generalizeRec (env : TypeEnv) (t : Ty) (name : String) : Scheme :=
  (env.remove name).generalize t

@[simp] theorem find?_extend (env : TypeEnv) (x y : String) (sc : Scheme) :
    (env.extend x sc).find? y = if x = y then some sc else env.find? y :=
  SortedMap.find?_insert env x y sc

@[simp] theorem find?_remove (env : TypeEnv) (x y : String) :
    (env.remove x).find? y = if y = x then none else env.find? y :=
  SortedMap.find?_erase env x y

/-- Applying a substitution to an environment applies it to the scheme of every name. -/
@[simp] theorem find?_applySubst (env : TypeEnv) (s : Subst) (x : String) :
    (env.applySubst s).find? x =
      (env.find? x).map (fun sc => ⟨sc.vars, (s.without sc.vars).apply sc.ty⟩) :=
  SortedMap.find?_mapValues _ env x

end TypeEnv

end HindleyMilner
