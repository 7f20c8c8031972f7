import HindleyMilner.Proofs.Substitution
import Mathlib.SetTheory.Cardinal.Arithmetic
/-!
# Renamings of type variables

Types that are instances of each other differ only in the names of their variables. For a list
of types sent by `f` to types that `g` sends back, `g` undoes `f` on every variable that occurs,
so `f` sends each of them to a variable, and distinct ones to distinct ones; a finite injection
of variables extends to a permutation of all of them (`Ty.exists_perm_of_substWith_cancel`).
-/

namespace HindleyMilner

namespace Ty

/-- A replacement that leaves a type as it is sends each of its variables to itself. -/
theorem eq_var_of_substWith_eq_self {f : Nat → Ty} :
    ∀ {t : Ty}, t.substWith f = t → ∀ v ∈ t.vars, f v = .var v
  | .var w, h, v, hv => by
    rw [vars_var, List.mem_singleton] at hv
    subst hv
    exact h
  | .prim _, _, v, hv => absurd hv (by simp)
  | .arrow a b, h, v, hv => by
    simp only [substWith, arrow.injEq] at h
    rcases List.mem_append.1 (vars_arrow a b ▸ hv) with hv | hv
    · exact eq_var_of_substWith_eq_self h.1 v hv
    · exact eq_var_of_substWith_eq_self h.2 v hv
  | .tuple items, h, v, hv => by
    simp only [substWith, tuple.injEq] at h
    exact eq_var_of_substWithList_eq_self h v (vars_tuple items ▸ hv)
  | .list t, h, v, hv => by
    simp only [substWith, list.injEq] at h
    exact eq_var_of_substWith_eq_self h v (vars_list t ▸ hv)
where
  /-- The list form of `eq_var_of_substWith_eq_self`. -/
  eq_var_of_substWithList_eq_self : ∀ {ts : List Ty}, substWithList f ts = ts →
      ∀ v ∈ varsList ts, f v = .var v
    | [], _, v, hv => absurd hv (by simp [varsList])
    | t :: ts, h, v, hv => by
      simp only [substWithList, List.cons.injEq] at h
      rcases List.mem_append.1 (varsList_cons t ts ▸ hv) with hv | hv
      · exact eq_var_of_substWith_eq_self h.1 v hv
      · exact eq_var_of_substWithList_eq_self h.2 v hv

/-- Only a variable is sent to a variable. -/
theorem exists_eq_var_of_substWith_eq_var {f : Nat → Ty} {u : Ty} {v : Nat}
    (h : u.substWith f = .var v) : ∃ w, u = .var w := by
  cases u with
  | var w => exact ⟨w, rfl⟩
  | prim _ => simp [substWith] at h
  | arrow _ _ => simp [substWith] at h
  | tuple _ => simp [substWith] at h
  | list _ => simp [substWith] at h

/-- Renaming by a permutation and then by its inverse gives the type back. -/
theorem rename_symm (ρ : Equiv.Perm Nat) (t : Ty) : (t.rename ρ).rename ρ.symm = t := by
  rw [rename_eq, rename_eq, substWith_substWith]
  exact substWith_eq_self (fun v _ => by simp [substWith])

/-- Types that `f` sends to types that `g` brings back are renamed by `f`: some permutation of
the variables acts on each of them as `f` does. -/
theorem exists_perm_of_substWith_cancel {ts : List Ty} {f g : Nat → Ty}
    (h : ∀ t ∈ ts, (t.substWith f).substWith g = t) :
    ∃ ρ : Equiv.Perm Nat, ∀ t ∈ ts, t.rename ρ = t.substWith f := by
  -- on the variables that occur, `g` undoes `f`, so `f` sends each of them to a variable
  have hback : ∀ v ∈ varsList ts, (f v).substWith g = .var v := by
    intro v hv
    obtain ⟨t, ht, hvt⟩ := mem_varsList.1 hv
    have hid := h t ht
    rw [substWith_substWith] at hid
    exact eq_var_of_substWith_eq_self hid v hvt
  let occurring : Set Nat := {v | v ∈ varsList ts}
  choose ρ₀ hρ₀ using fun v : occurring => exists_eq_var_of_substWith_eq_var (hback v.1 v.2)
  -- distinct variables go to distinct ones, since `g` tells their images apart again
  have hinj : Function.Injective ρ₀ := by
    intro a b hab
    have ha : g (ρ₀ a) = .var a.1 := by simpa [hρ₀ a, substWith] using hback a.1 a.2
    have hb : g (ρ₀ b) = .var b.1 := by simpa [hρ₀ b, substWith] using hback b.1 b.2
    have hvar : Ty.var a.1 = .var b.1 := by rw [← ha, ← hb, hab]
    exact Subtype.ext (var.inj hvar)
  have hfin : Cardinal.mk occurring < Cardinal.mk Nat :=
    (List.finite_toSet (varsList ts)).lt_aleph0.trans_eq Cardinal.mk_nat.symm
  obtain ⟨σ, hσ⟩ := Cardinal.extend_function_of_lt ⟨ρ₀, hinj⟩ hfin ⟨Equiv.refl Nat⟩
  refine ⟨σ, fun t ht => ?_⟩
  rw [rename_eq]
  refine substWith_congr t (fun v hv => ?_)
  have hocc : v ∈ occurring := mem_varsList.2 ⟨t, ht, hv⟩
  rw [hσ ⟨v, hocc⟩, hρ₀ ⟨v, hocc⟩]
  rfl

end Ty

end HindleyMilner
