/-!
# Monotypes

The types of the language: primitive types, type variables, functions, tuples of any length
and lists. Type variables are numbered; inference draws new ones from a counter.

This module holds the type, its decidable equality, and the operations that everything else is
built on: the variables of a type (with and without repetition), the occurs test, size, and
replacing every variable by a type at once (`Ty.substWith`), of which renaming and single
replacement are instances.
-/

namespace HindleyMilner

/-- Inserts `v` into a strictly ascending list of variables, keeping it strictly ascending. -/
def insertVar (v : Nat) : List Nat → List Nat
  | [] => [v]
  | w :: ws => if v < w then v :: w :: ws else if v = w then w :: ws else w :: insertVar v ws

/-- The distinct members of a list of variables, in ascending order: sets of variables are
kept and printed this way. -/
def varSet (vs : List Nat) : List Nat := vs.foldr insertVar []

/-- The built-in base types. -/
inductive Prim where
  | int
  | bool
  | string
  | unit
  deriving DecidableEq, Repr

/-- The keyword that names a base type. -/
def Prim.name : Prim → String
  | .int => "int"
  | .bool => "bool"
  | .string => "string"
  | .unit => "unit"

/-- A monotype. A tuple may have any number of components, the empty tuple included. -/
inductive Ty where
  /-- The type variable with the given number. -/
  | var (id : Nat)
  /-- A base type. -/
  | prim (p : Prim)
  /-- Functions from `dom` to `cod`. -/
  | arrow (dom cod : Ty)
  /-- Tuples whose components have the given types, in order. -/
  | tuple (items : List Ty)
  /-- Lists whose elements have type `elem`. -/
  | list (elem : Ty)
  deriving Repr

namespace Ty

/-- The type `int`. -/
abbrev int : Ty := .prim .int
/-- The type `bool`. -/
abbrev bool : Ty := .prim .bool
/-- The type `string`. -/
abbrev string : Ty := .prim .string
/-- The type `unit`. -/
abbrev unit : Ty := .prim .unit

mutual
/-- Equality of types is decided by comparing constructors and then their arguments. -/
def decEq : (a b : Ty) → Decidable (a = b)
  | .var v, .var w =>
    if h : v = w then isTrue (h ▸ rfl) else isFalse (fun e => by cases e; exact h rfl)
  | .prim p, .prim q =>
    if h : p = q then isTrue (h ▸ rfl) else isFalse (fun e => by cases e; exact h rfl)
  | .arrow a b, .arrow c d =>
    match decEq a c, decEq b d with
    | isTrue h₁, isTrue h₂ => isTrue (h₁ ▸ h₂ ▸ rfl)
    | isFalse h₁, _ => isFalse (fun e => by cases e; exact h₁ rfl)
    | _, isFalse h₂ => isFalse (fun e => by cases e; exact h₂ rfl)
  | .tuple xs, .tuple ys =>
    match decEqList xs ys with
    | isTrue h => isTrue (h ▸ rfl)
    | isFalse h => isFalse (fun e => by cases e; exact h rfl)
  | .list a, .list b =>
    match decEq a b with
    | isTrue h => isTrue (h ▸ rfl)
    | isFalse h => isFalse (fun e => by cases e; exact h rfl)
  | .var _, .prim _ | .var _, .arrow _ _ | .var _, .tuple _ | .var _, .list _
  | .prim _, .var _ | .prim _, .arrow _ _ | .prim _, .tuple _ | .prim _, .list _
  | .arrow _ _, .var _ | .arrow _ _, .prim _ | .arrow _ _, .tuple _ | .arrow _ _, .list _
  | .tuple _, .var _ | .tuple _, .prim _ | .tuple _, .arrow _ _ | .tuple _, .list _
  | .list _, .var _ | .list _, .prim _ | .list _, .arrow _ _ | .list _, .tuple _ =>
    isFalse (fun e => by cases e)
/-- Equality of lists of types, component by component. -/
def decEqList : (xs ys : List Ty) → Decidable (xs = ys)
  | [], [] => isTrue rfl
  | x :: xs, y :: ys =>
    match decEq x y, decEqList xs ys with
    | isTrue h₁, isTrue h₂ => isTrue (h₁ ▸ h₂ ▸ rfl)
    | isFalse h₁, _ => isFalse (fun e => by cases e; exact h₁ rfl)
    | _, isFalse h₂ => isFalse (fun e => by cases e; exact h₂ rfl)
  | [], _ :: _ => isFalse (fun e => by cases e)
  | _ :: _, [] => isFalse (fun e => by cases e)
end

instance : DecidableEq Ty := decEq

mutual
/-- The number of constructors in a type. -/
def size : Ty → Nat
  | .var _ => 1
  | .prim _ => 1
  | .arrow a b => a.size + b.size + 1
  | .tuple items => sizeList items + 1
  | .list t => t.size + 1
/-- The total size of a list of types. -/
def sizeList : List Ty → Nat
  | [] => 0
  | t :: ts => t.size + sizeList ts
end

mutual
/-- Every occurrence of a variable in the type, left to right, repetitions kept. -/
def vars : Ty → List Nat
  | .var v => [v]
  | .prim _ => []
  | .arrow a b => a.vars ++ b.vars
  | .tuple items => varsList items
  | .list t => t.vars
/-- The variable occurrences of a list of types, left to right. -/
def varsList : List Ty → List Nat
  | [] => []
  | t :: ts => t.vars ++ varsList ts
end

/-- The variables of the type in the order of their first occurrence, each once. -/
def varsInOrder (t : Ty) : List Nat := t.vars.eraseDups

/-- The free variables of the type, ascending, each once. -/
def freeVars (t : Ty) : List Nat := varSet t.vars

/-- Whether the variable `v` occurs in `t`. -/
def occurs (v : Nat) (t : Ty) : Bool := t.vars.contains v

mutual
/-- Replaces every variable `v` of the type by `f v`, all at once. -/
def substWith (f : Nat → Ty) : Ty → Ty
  | .var v => f v
  | .prim p => .prim p
  | .arrow a b => .arrow (a.substWith f) (b.substWith f)
  | .tuple items => .tuple (substWithList f items)
  | .list t => .list (t.substWith f)
/-- Replaces the variables of every type of the list, all at once. -/
def substWithList (f : Nat → Ty) : List Ty → List Ty
  | [] => []
  | t :: ts => t.substWith f :: substWithList f ts
end

/-- Replaces the variable `v` by `s` and leaves every other variable alone. -/
def substVar (t : Ty) (v : Nat) (s : Ty) : Ty :=
  t.substWith (fun w => if w = v then s else .var w)

/-- Renames every variable `v` to `f v`, all at once. -/
def rename (f : Nat → Nat) (t : Ty) : Ty :=
  t.substWith (fun v => .var (f v))

@[simp] theorem size_pos (t : Ty) : 0 < t.size := by
  cases t <;> simp [size]

@[simp] theorem sizeList_cons (t : Ty) (ts : List Ty) :
    sizeList (t :: ts) = t.size + sizeList ts := by
  simp [sizeList]

@[simp] theorem vars_arrow (a b : Ty) : (arrow a b).vars = a.vars ++ b.vars := by
  simp [vars]

@[simp] theorem vars_list (t : Ty) : (list t).vars = t.vars := by
  simp [vars]

@[simp] theorem vars_var (v : Nat) : (var v).vars = [v] := by
  simp [vars]

@[simp] theorem vars_prim (p : Prim) : (prim p).vars = [] := by
  simp [vars]

@[simp] theorem vars_tuple (items : List Ty) : (tuple items).vars = varsList items := by
  simp [vars]

@[simp] theorem varsList_cons (t : Ty) (ts : List Ty) :
    varsList (t :: ts) = t.vars ++ varsList ts := by
  simp [varsList]

theorem mem_insertVar (v w : Nat) :
    ∀ ws : List Nat, w ∈ insertVar v ws ↔ w = v ∨ w ∈ ws
  | [] => by simp [insertVar]
  | u :: us => by
    unfold insertVar
    split
    · simp
    · split
      · subst v; simp
      · simp [mem_insertVar v w us, or_left_comm]

@[simp] theorem mem_varSet (w : Nat) (vs : List Nat) : w ∈ varSet vs ↔ w ∈ vs := by
  induction vs with
  | nil => simp [varSet]
  | cons v vs ih =>
    simp only [varSet, List.foldr_cons] at ih ⊢
    rw [mem_insertVar, ih, List.mem_cons]

/-- Replacing the variables of a list of types is replacing them in each type. -/
theorem substWithList_eq_map (f : Nat → Ty) : ∀ ts : List Ty, substWithList f ts = ts.map (substWith f)
  | [] => rfl
  | t :: ts => by simp [substWithList, substWithList_eq_map f ts]

theorem occurs_iff (v : Nat) (t : Ty) : t.occurs v = true ↔ v ∈ t.vars := by
  simp [occurs]

theorem occurs_eq_false_iff (v : Nat) (t : Ty) : t.occurs v = false ↔ v ∉ t.vars := by
  rw [← occurs_iff, Bool.not_eq_true]

/-- The variables after a replacement are those of the images of the variables before. -/
theorem mem_vars_substWith (f : Nat → Ty) (w : Nat) :
    ∀ t : Ty, w ∈ (t.substWith f).vars ↔ ∃ v ∈ t.vars, w ∈ (f v).vars
  | .var v => by simp [substWith]
  | .prim p => by simp [substWith]
  | .arrow a b => by
    simp only [substWith, vars_arrow, List.mem_append, mem_vars_substWith f w a,
      mem_vars_substWith f w b]
    constructor
    · rintro (⟨v, hv, h⟩ | ⟨v, hv, h⟩)
      · exact ⟨v, Or.inl hv, h⟩
      · exact ⟨v, Or.inr hv, h⟩
    · rintro ⟨v, hv | hv, h⟩
      · exact Or.inl ⟨v, hv, h⟩
      · exact Or.inr ⟨v, hv, h⟩
  | .tuple items => by
    simp only [substWith, vars_tuple]
    exact mem_varsList_substWithList f w items
  | .list t => by
    simp only [substWith, vars_list]
    exact mem_vars_substWith f w t
where
  /-- The list form of `mem_vars_substWith`. -/
  mem_varsList_substWithList (f : Nat → Ty) (w : Nat) :
      ∀ ts : List Ty, w ∈ varsList (substWithList f ts) ↔ ∃ v ∈ varsList ts, w ∈ (f v).vars
    | [] => by simp [substWithList, varsList]
    | t :: ts => by
      simp only [substWithList, varsList_cons, List.mem_append, mem_vars_substWith f w t,
        mem_varsList_substWithList f w ts]
      constructor
      · rintro (⟨v, hv, h⟩ | ⟨v, hv, h⟩)
        · exact ⟨v, Or.inl hv, h⟩
        · exact ⟨v, Or.inr hv, h⟩
      · rintro ⟨v, hv | hv, h⟩
        · exact Or.inl ⟨v, hv, h⟩
        · exact Or.inr ⟨v, hv, h⟩

/-- After replacing `v` by `s`, a variable comes from `s` or is a different variable of `t`. -/
theorem mem_vars_substVar {v w : Nat} {s t : Ty} (h : w ∈ (t.substVar v s).vars) :
    w ∈ s.vars ∨ (w ∈ t.vars ∧ w ≠ v) := by
  rw [substVar, mem_vars_substWith] at h
  obtain ⟨u, hu, hw⟩ := h
  by_cases huv : u = v
  · simp [huv] at hw
    exact Or.inl hw
  · simp [huv] at hw
    subst hw
    exact Or.inr ⟨hu, huv⟩

end Ty

end HindleyMilner
