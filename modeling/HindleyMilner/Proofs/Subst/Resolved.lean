import HindleyMilner.Proofs.Substitution
import HindleyMilner.Proofs.SortedMap
/-!
# Resolved substitutions

A substitution is resolved when no target mentions a bound variable (`Subst.Resolved`). Then
applying it leaves no bound variable behind (`Resolved.apply_free`), so applying it twice is
applying it once (`Resolved.apply_apply`): a resolved substitution is idempotent.

This module shows that the ways a single binding enters keep a substitution resolved:

* `resolved_of_singleton`: a singleton that passed the occurs check;
* `Resolved.assign`: a binding whose target mentions neither a bound variable nor itself;
* `Resolved.extend`: `extend`, in each of its outcomes, which `extend_eq_ok` lists;
* `Resolved.without`: removing bindings.

It also names the variables a substitution mentions, as a key or in a target
(`Subst.Mentions`): what inference may bind is tracked through them.
-/

namespace HindleyMilner

namespace Subst

variable {s r : Subst} {v : Nat} {t : Ty}

/-- A substitution leaves alone a type none of whose variables it binds. -/
theorem apply_eq_self_of_free (h : ∀ w ∈ t.vars, s.find? w = none) : s.apply t = t :=
  Ty.substWith_eq_self (fun w hw => image_of_find?_eq_none (h w hw))

/-- The outcomes of `extend`: a binding of `v` to itself is dropped, and otherwise the target,
read through `s`, must not contain `v` and is assigned. -/
theorem extend_eq_ok : s.extend v t = .ok r ↔
    (s.apply t = .var v ∧ r = s) ∨
      (s.apply t ≠ .var v ∧ (s.apply t).occurs v = false ∧ r = s.assign v (s.apply t)) := by
  simp only [extend]
  by_cases halias : s.apply t = .var v
  · rw [if_pos halias]
    constructor
    · intro h
      cases h
      exact Or.inl ⟨halias, rfl⟩
    · rintro (⟨-, rfl⟩ | ⟨h, -⟩)
      · rfl
      · exact absurd halias h
  · rw [if_neg halias]
    cases hocc : (s.apply t).occurs v
    · simp only [Bool.false_eq_true, if_false]
      constructor
      · intro h
        cases h
        exact Or.inr ⟨halias, trivial, rfl⟩
      · rintro (⟨h, -⟩ | ⟨-, -, rfl⟩)
        · exact absurd h halias
        · rfl
    · simp only [if_true]
      constructor
      · intro h
        cases h
      · rintro (⟨h, -⟩ | ⟨-, h, -⟩)
        · exact absurd h halias
        · cases h

/-- Assigning keeps a substitution sorted. -/
theorem Sorted.assign (h : SortedMap.Sorted s) (v : Nat) (t : Ty) :
    SortedMap.Sorted (s.assign v t) :=
  (h.mapValues _).insert v t

theorem sorted_empty : SortedMap.Sorted empty := SortedMap.sorted_empty

namespace Resolved

/-- The image of a variable under a resolved substitution binds nothing. -/
theorem image_free (h : s.Resolved) (v : Nat) : ∀ w ∈ (s.image v).vars, s.find? w = none := by
  intro w hw
  rcases mem_vars_image hw with ⟨u, hu, hwu⟩ | ⟨hv, rfl⟩
  · exact h v u hu w hwu
  · exact hv

/-- Applying a resolved substitution leaves no bound variable. -/
theorem apply_free (h : s.Resolved) (t : Ty) : ∀ w ∈ (s.apply t).vars, s.find? w = none := by
  intro w hw
  obtain ⟨v, -, hwv⟩ := mem_vars_apply.1 hw
  exact h.image_free v w hwv

/-- A resolved substitution is idempotent. -/
theorem apply_apply (h : s.Resolved) (t : Ty) : s.apply (s.apply t) = s.apply t :=
  apply_eq_self_of_free (h.apply_free t)

/-- A resolved substitution absorbs itself. -/
theorem absorbs (h : s.Resolved) : AbsorbsSubst s.image s := fun v =>
  h.apply_apply (.var v)

/-- Removing bindings keeps a substitution resolved. -/
theorem without (h : s.Resolved) (vs : List Nat) : (s.without vs).Resolved := by
  intro v u hv w hw
  rw [find?_without] at hv ⊢
  by_cases hvs : v ∈ vs
  · simp [hvs] at hv
  · rw [if_neg hvs] at hv
    simp [h v u hv w hw]

/-- A binding of `v` to a type that mentions no bound variable and not `v` itself keeps a
substitution resolved; the earlier targets have `v` replaced. -/
theorem assign (h : s.Resolved) (ht : ∀ w ∈ t.vars, s.find? w = none) (hv : v ∉ t.vars) :
    (s.assign v t).Resolved := by
  intro u tu hu w hw
  rw [find?_assign] at hu ⊢
  have hwv : v ≠ w := by
    rintro rfl
    by_cases huv : v = u
    · rw [if_pos huv] at hu
      cases hu
      exact hv hw
    · rw [if_neg huv] at hu
      obtain ⟨tu', -, rfl⟩ := Option.map_eq_some_iff.1 hu
      rcases Ty.mem_vars_substVar hw with hw | ⟨-, hne⟩
      · exact hv hw
      · exact hne rfl
  rw [if_neg hwv]
  by_cases huv : v = u
  · rw [if_pos huv] at hu
    cases hu
    simp [ht w hw]
  · rw [if_neg huv] at hu
    obtain ⟨tu', htu', rfl⟩ := Option.map_eq_some_iff.1 hu
    rcases Ty.mem_vars_substVar hw with hw | ⟨hw, -⟩
    · simp [ht w hw]
    · simp [h u tu' htu' w hw]

/-- `extend` keeps a substitution resolved. -/
theorem extend (h : s.Resolved) (he : s.extend v t = .ok r) : r.Resolved := by
  rcases extend_eq_ok.1 he with ⟨-, rfl⟩ | ⟨-, hocc, rfl⟩
  · exact h
  · exact h.assign (h.apply_free t) ((Ty.occurs_eq_false_iff v _).1 hocc)

end Resolved

theorem resolved_empty : empty.Resolved := by
  intro v t hv
  simp at hv

/-- A singleton that passed the occurs check is resolved. -/
theorem resolved_of_singleton (h : singleton v t = .ok s) : s.Resolved := by
  unfold singleton at h
  split at h
  · cases h
  · rename_i hocc
    cases h
    intro u tu hu w hw
    simp only [SortedMap.find?, List.find?_cons, List.find?_nil] at hu ⊢
    by_cases huv : v = u
    · simp only [huv, decide_true, Option.map_some, Option.some.injEq] at hu
      subst hu
      have hwv : ¬ v = w := by
        rintro rfl
        exact hocc ((Ty.occurs_iff v t).2 hw)
      simp [hwv]
    · simp [huv] at hu

/-- `w` is bound by `s` or occurs in a target of `s`. -/
def Mentions (s : Subst) (w : Nat) : Prop := ∃ v t, (v, t) ∈ s.entries ∧ (w = v ∨ w ∈ t.vars)

theorem not_mentions_empty (w : Nat) : ¬ empty.Mentions w := by
  rintro ⟨v, t, h, -⟩
  simp [empty] at h

/-- A binding of `s` mentions its variable and the variables of its target. -/
theorem mentions_of_find? {s : Subst} {v : Nat} {t : Ty} (h : s.find? v = some t) {w : Nat}
    (hw : w = v ∨ w ∈ t.vars) : s.Mentions w :=
  ⟨v, t, SortedMap.mem_entries_of_find? h, hw⟩

/-- What an assignment mentions: the new binding, and what was mentioned before. -/
theorem mentions_assign {s : Subst} {v w : Nat} {t : Ty} (h : (s.assign v t).Mentions w) :
    w = v ∨ w ∈ t.vars ∨ s.Mentions w := by
  obtain ⟨u, tu, hu, hw⟩ := h
  rcases SortedMap.mem_entries_insert hu with he | hu
  · cases he
    rcases hw with rfl | hw
    · exact Or.inl rfl
    · exact Or.inr (Or.inl hw)
  · obtain ⟨tu', htu', rfl⟩ := SortedMap.mem_entries_mapValues hu
    rcases hw with rfl | hw
    · exact Or.inr (Or.inr ⟨_, tu', htu', Or.inl rfl⟩)
    · rcases Ty.mem_vars_substVar hw with hw | ⟨hw, -⟩
      · exact Or.inr (Or.inl hw)
      · exact Or.inr (Or.inr ⟨u, tu', htu', Or.inr hw⟩)

end Subst

end HindleyMilner
