import HindleyMilner.Type.Basic
/-!
# Why unification terminates

Unification works through a list of equations between types. Each step either removes a type
variable from the equations altogether (binding it), or keeps the variables and makes the
equations smaller. So the pair (number of distinct variables, total size) decreases
lexicographically at every step.

This module defines the equations, their variables and size, and counts distinct variables;
its lemmas are the two ways the pair can decrease.
-/

namespace HindleyMilner

/-- Equations between types, to be solved from the left. -/
abbrev Equations := List (Ty × Ty)

namespace Equations

/-- The variable occurrences of the equations, left to right. -/
def vars (eqs : Equations) : List Nat := eqs.flatMap (fun e => e.1.vars ++ e.2.vars)

/-- The total size of both sides of all equations. -/
def size (eqs : Equations) : Nat := eqs.foldr (fun e n => e.1.size + e.2.size + n) 0

/-- Replaces the variable `v` by `t` on both sides of every equation. -/
def substVar (eqs : Equations) (v : Nat) (t : Ty) : Equations :=
  eqs.map (fun e => (e.1.substVar v t, e.2.substVar v t))

@[simp] theorem vars_nil : vars [] = [] := rfl

@[simp] theorem vars_cons (a b : Ty) (rest : Equations) :
    vars ((a, b) :: rest) = a.vars ++ b.vars ++ vars rest := by
  simp [vars]

@[simp] theorem vars_append (e₁ e₂ : Equations) : vars (e₁ ++ e₂) = vars e₁ ++ vars e₂ := by
  simp [vars]

@[simp] theorem size_nil : size [] = 0 := rfl

@[simp] theorem size_cons (a b : Ty) (rest : Equations) :
    size ((a, b) :: rest) = a.size + b.size + size rest := rfl

@[simp] theorem size_append (e₁ e₂ : Equations) : size (e₁ ++ e₂) = size e₁ + size e₂ := by
  induction e₁ with
  | nil => simp [size]
  | cons e rest ih =>
    show e.1.size + e.2.size + size (rest ++ e₂) = e.1.size + e.2.size + size rest + size e₂
    rw [ih]
    omega

/-- After replacing `v` by `t`, a variable comes from `t` or is another variable of before. -/
theorem mem_vars_substVar {eqs : Equations} {v w : Nat} {t : Ty}
    (h : w ∈ (eqs.substVar v t).vars) : w ∈ t.vars ∨ (w ∈ eqs.vars ∧ w ≠ v) := by
  induction eqs with
  | nil => simp [substVar] at h
  | cons e rest ih =>
    simp only [substVar, List.map_cons] at h ih
    rw [vars_cons, List.mem_append, List.mem_append] at h
    rcases h with (h | h) | h
    · rcases Ty.mem_vars_substVar h with h | ⟨h, hne⟩
      · exact Or.inl h
      · exact Or.inr ⟨by simp [vars, h], hne⟩
    · rcases Ty.mem_vars_substVar h with h | ⟨h, hne⟩
      · exact Or.inl h
      · exact Or.inr ⟨by simp [vars, h], hne⟩
    · rcases ih h with h | ⟨h, hne⟩
      · exact Or.inl h
      · exact Or.inr ⟨by simp only [vars, List.flatMap_cons, List.mem_append] at h ⊢; exact Or.inr h, hne⟩

/-- The variables of component-wise equations between two lists of types. -/
theorem mem_vars_zip {w : Nat} :
    ∀ {xs ys : List Ty}, w ∈ vars (xs.zip ys) → w ∈ Ty.varsList xs ∨ w ∈ Ty.varsList ys
  | [], _, h => by simp at h
  | _ :: _, [], h => by simp at h
  | x :: xs, y :: ys, h => by
    rw [List.zip_cons_cons, vars_cons, List.mem_append, List.mem_append] at h
    simp only [Ty.varsList_cons, List.mem_append]
    rcases h with (h | h) | h
    · exact Or.inl (Or.inl h)
    · exact Or.inr (Or.inl h)
    · rcases mem_vars_zip h with h | h
      · exact Or.inl (Or.inr h)
      · exact Or.inr (Or.inr h)

/-- Component-wise equations between two lists of types are no larger than the lists. -/
theorem size_zip_le : ∀ xs ys : List Ty, size (xs.zip ys) ≤ Ty.sizeList xs + Ty.sizeList ys
  | [], _ => by simp
  | _ :: _, [] => by simp
  | x :: xs, y :: ys => by
    rw [List.zip_cons_cons, size_cons, Ty.sizeList_cons, Ty.sizeList_cons]
    have := size_zip_le xs ys
    omega

end Equations

/-- One more than the largest member of a list of numbers, and `1` for the empty list. -/
def bound (l : List Nat) : Nat := l.foldr max 0 + 1

/-- The number of distinct members of a list of numbers. -/
def distinctCount (l : List Nat) : Nat := (List.range (bound l)).countP (· ∈ l)

theorem le_foldr_max {v : Nat} : ∀ {l : List Nat}, v ∈ l → v ≤ l.foldr max 0
  | _ :: _, .head _ => Nat.le_max_left _ _
  | x :: _, .tail _ h => Nat.le_trans (le_foldr_max h) (Nat.le_max_right x _)

theorem lt_bound {v : Nat} {l : List Nat} (h : v ∈ l) : v < bound l :=
  Nat.lt_succ_of_le (le_foldr_max h)

theorem bound_le_of_subset : ∀ {l₁ l₂ : List Nat}, l₁ ⊆ l₂ → bound l₁ ≤ bound l₂
  | [], _, _ => by simp [bound]
  | x :: xs, l₂, h => by
    have hx : x ≤ l₂.foldr max 0 := le_foldr_max (h (List.mem_cons_self))
    have hxs : bound xs ≤ bound l₂ := bound_le_of_subset (fun _ hy => h (List.mem_cons_of_mem _ hy))
    simp only [bound, List.foldr_cons] at hxs ⊢
    exact Nat.succ_le_succ (Nat.max_le.2 ⟨hx, Nat.le_of_succ_le_succ hxs⟩)

/-- Counting over a longer range finds nothing new once the range covers every member. -/
theorem countP_range_add {p : Nat → Bool} {n : Nat} (h : ∀ v, p v = true → v < n) :
    ∀ k, (List.range (n + k)).countP p = (List.range n).countP p
  | 0 => rfl
  | k + 1 => by
    have hn : p (n + k) = false := by
      cases hp : p (n + k)
      · rfl
      · exact absurd (h _ hp) (by omega)
    rw [← Nat.add_assoc, List.range_succ, List.countP_append, countP_range_add h k]
    simp [hn]

/-- Counting members over a range that covers both lists. -/
theorem distinctCount_eq_countP {l : List Nat} {n : Nat} (hn : bound l ≤ n) :
    distinctCount l = (List.range n).countP (· ∈ l) := by
  have h := countP_range_add (p := fun v => decide (v ∈ l)) (n := bound l)
    (fun v hv => lt_bound (by simpa using hv)) (n - bound l)
  rw [Nat.add_sub_cancel' hn] at h
  rw [distinctCount, h]

/-- Counting strictly fewer when the weaker test fails somewhere the stronger one holds. -/
theorem countP_lt_countP {p q : Nat → Bool} :
    ∀ {l : List Nat}, (∀ x ∈ l, p x = true → q x = true) →
      ∀ {y}, y ∈ l → q y = true → p y = false → l.countP p < l.countP q
  | [], _, _, hy, _, _ => by simp at hy
  | x :: xs, hpq, y, hy, hq, hp => by
    rw [List.countP_cons, List.countP_cons]
    have hmono : xs.countP p ≤ xs.countP q :=
      List.countP_mono_left (fun z hz => hpq z (List.mem_cons_of_mem _ hz))
    rcases List.mem_cons.1 hy with rfl | hy
    · simp only [hp, hq, if_true, Bool.false_eq_true, if_false]
      omega
    · have ih := countP_lt_countP (fun z hz => hpq z (List.mem_cons_of_mem _ hz)) hy hq hp
      have hx : (if p x = true then 1 else 0) ≤ (if q x = true then 1 else 0) := by
        by_cases hpx : p x = true
        · exact Nat.le_of_eq (by rw [if_pos hpx, if_pos (hpq x List.mem_cons_self hpx)])
        · rw [if_neg hpx]
          exact Nat.zero_le _
      exact Nat.add_lt_add_of_lt_of_le ih hx

theorem distinctCount_le_of_subset {l₁ l₂ : List Nat} (h : l₁ ⊆ l₂) :
    distinctCount l₁ ≤ distinctCount l₂ := by
  rw [distinctCount_eq_countP (bound_le_of_subset h), distinctCount_eq_countP (Nat.le_refl _)]
  exact List.countP_mono_left (fun x _ hx => by simpa using h (by simpa using hx))

theorem distinctCount_lt_of_subset {l₁ l₂ : List Nat} {v : Nat} (h : l₁ ⊆ l₂) (hv : v ∈ l₂)
    (hnv : v ∉ l₁) : distinctCount l₁ < distinctCount l₂ := by
  rw [distinctCount_eq_countP (bound_le_of_subset h), distinctCount_eq_countP (Nat.le_refl _)]
  exact countP_lt_countP (fun x _ hx => by simpa using h (by simpa using hx))
    (List.mem_range.2 (lt_bound hv)) (by simpa using hv) (by simpa using hnv)

/-- A pair of numbers decreases lexicographically when the first does not grow and the second
shrinks. -/
theorem lex_of_le_of_lt {a₁ a₂ b₁ b₂ : Nat} (ha : a₁ ≤ a₂) (hb : b₁ < b₂) :
    Prod.Lex (· < ·) (· < ·) (a₁, b₁) (a₂, b₂) := by
  rcases Nat.lt_or_eq_of_le ha with h | h
  · exact Prod.Lex.left _ _ h
  · subst h; exact Prod.Lex.right _ hb

namespace Equations

/-- The measure decreases when no variable appears and the size shrinks. -/
theorem measure_lt_of_size_lt {e₁ e₂ : Equations} (hv : e₁.vars ⊆ e₂.vars)
    (hs : e₁.size < e₂.size) :
    Prod.Lex (· < ·) (· < ·) (distinctCount e₁.vars, e₁.size) (distinctCount e₂.vars, e₂.size) :=
  lex_of_le_of_lt (distinctCount_le_of_subset hv) hs

/-- The measure decreases when the first equation is dropped. -/
theorem measure_lt_cons (a b : Ty) (rest : Equations) :
    Prod.Lex (· < ·) (· < ·) (distinctCount rest.vars, rest.size)
      (distinctCount (vars ((a, b) :: rest)), size ((a, b) :: rest)) := by
  apply measure_lt_of_size_lt
  · intro w hw
    simp [hw]
  · have := Ty.size_pos a
    simp only [size_cons]
    omega

/-- The measure decreases when a variable `v` of the first equation, not occurring in `t`, is
replaced by `t`, a type made of the first equation's variables, in the rest. -/
theorem measure_lt_substVar {a b t : Ty} {v : Nat} {rest : Equations}
    (hv : v ∈ a.vars ++ b.vars) (ht : ∀ w ∈ t.vars, w ∈ a.vars ++ b.vars)
    (hn : ¬ t.occurs v = true) :
    Prod.Lex (· < ·) (· < ·)
      (distinctCount (rest.substVar v t).vars, (rest.substVar v t).size)
      (distinctCount (vars ((a, b) :: rest)), size ((a, b) :: rest)) := by
  apply Prod.Lex.left
  apply distinctCount_lt_of_subset (v := v)
  · intro w hw
    rcases mem_vars_substVar hw with h | ⟨h, _⟩
    · have := ht w h
      rw [vars_cons]
      exact List.mem_append_left _ this
    · rw [vars_cons]
      exact List.mem_append_right _ h
  · rw [vars_cons]
    exact List.mem_append_left _ hv
  · intro h
    rcases mem_vars_substVar h with h | ⟨_, hne⟩
    · exact hn ((Ty.occurs_iff v t).2 h)
    · exact hne rfl

end Equations

end HindleyMilner
