import HindleyMilner.Proofs.Substitution
import HindleyMilner.Type.Printer
import Mathlib.Logic.Equiv.Defs
import Mathlib.Data.Set.Function
/-!
# Printing renamed types and schemes

Printing a renamed type is printing the type with each variable under the name of its image
(`Ty.render_rename`). A scheme names its quantified variables by their places in the order of
first occurrence, and a permutation of the variables keeps that order, so a closed scheme prints
as any renaming of it does (`Scheme.pretty_rename`).
-/

namespace HindleyMilner

/-- `List.eraseDups` commutes with a map that is injective on the list. -/
theorem eraseDups_map_of_injOn {f : Nat → Nat} :
    ∀ l : List Nat, Set.InjOn f {x | x ∈ l} → (l.map f).eraseDups = l.eraseDups.map f
  | [], _ => rfl
  | a :: l, hf => by
    rw [List.map_cons, List.eraseDups_cons, List.eraseDups_cons, List.map_cons, List.filter_map]
    -- on the list, `f b = f a` only for `b = a`
    have hfilter : l.filter ((fun b => !b == f a) ∘ f) = l.filter fun b => !b == a :=
      List.filter_congr fun b hb => by
        by_cases hba : b = a
        · simp [hba]
        · have hne : f b ≠ f a := fun h => hba (hf (by simp [hb]) (by simp) h)
          simp [hba, hne]
    have hsub : Set.InjOn f {x | x ∈ l.filter fun b => !b == a} :=
      hf.mono fun x hx => List.mem_cons_of_mem a (List.mem_filter.1 hx).1
    rw [hfilter, eraseDups_map_of_injOn (l.filter fun b => !b == a) hsub]
termination_by l => l.length
decreasing_by exact Nat.lt_succ_of_le (List.length_filter_le _ _)

/-- `List.eraseDups` commutes with an injective map. -/
theorem eraseDups_map_of_injective {f : Nat → Nat} (hf : Function.Injective f) (l : List Nat) :
    (l.map f).eraseDups = l.eraseDups.map f :=
  eraseDups_map_of_injOn l hf.injOn

/-- A map injective on a list and a variable keeps the variable's place in the list. -/
theorem idxOf?_map_of_injOn {f : Nat → Nat} {v : Nat} :
    ∀ l : List Nat, Set.InjOn f {x | x = v ∨ x ∈ l} → (l.map f).idxOf? (f v) = l.idxOf? v
  | [], _ => rfl
  | a :: l, hf => by
    have hav : f a = f v ↔ a = v :=
      ⟨fun h => hf (by simp) (by simp) h, fun h => h ▸ rfl⟩
    have hsub : Set.InjOn f {x | x = v ∨ x ∈ l} :=
      hf.mono fun x hx => hx.imp_right (List.mem_cons_of_mem a)
    simp [List.idxOf?_cons, hav, idxOf?_map_of_injOn l hsub]

/-- An injective map keeps every place in a list. -/
theorem idxOf?_map_of_injective {f : Nat → Nat} (hf : Function.Injective f) (v : Nat)
    (l : List Nat) : (l.map f).idxOf? (f v) = l.idxOf? v :=
  idxOf?_map_of_injOn l hf.injOn

namespace Ty

/-- The variable occurrences of a renamed type are the renamed occurrences, in order. -/
theorem vars_rename (ρ : Nat → Nat) : ∀ t : Ty, (t.rename ρ).vars = t.vars.map ρ
  | .var _ => rfl
  | .prim _ => rfl
  | .arrow a b => by
    simp only [rename_eq, substWith, vars_arrow, List.map_append]
    rw [← rename_eq, ← rename_eq, vars_rename ρ a, vars_rename ρ b]
  | .tuple items => by
    simp only [rename_eq, substWith, vars_tuple]
    exact varsList_rename ρ items
  | .list t => by
    simp only [rename_eq, substWith, vars_list]
    exact vars_rename ρ t
where
  /-- The list form of `vars_rename`. -/
  varsList_rename (ρ : Nat → Nat) : ∀ ts : List Ty,
      varsList (substWithList (fun v => .var (ρ v)) ts) = (varsList ts).map ρ
    | [] => rfl
    | t :: ts => by
      simp only [substWithList, varsList_cons, List.map_append]
      rw [← rename_eq, vars_rename ρ t, varsList_rename ρ ts]

/-- Printing a renamed type is printing the type with each variable under its image's name. -/
theorem render_rename (name : Nat → String) (ρ : Nat → Nat) :
    ∀ (p : Prec) (t : Ty), (t.rename ρ).render name p = t.render (fun v => name (ρ v)) p
  | _, .var _ => rfl
  | _, .prim _ => rfl
  | _, .list t => by
    simp only [rename_eq, substWith, render]
    rw [← rename_eq, render_rename name ρ .atom t]
  | p, .tuple items => by
    simp only [rename_eq, substWith, render]
    rw [renderList_rename name ρ items]
    simp only [substWithList_eq_map, List.isEmpty_map]
  | p, .arrow a b => by
    simp only [rename_eq, substWith, render]
    rw [← rename_eq, ← rename_eq, render_rename name ρ .tuple a, render_rename name ρ .arrow b]
where
  /-- The list form of `render_rename`. -/
  renderList_rename (name : Nat → String) (ρ : Nat → Nat) : ∀ ts : List Ty,
      renderList name (substWithList (fun v => .var (ρ v)) ts) =
        renderList (fun v => name (ρ v)) ts
    | [] => rfl
    | t :: ts => by
      simp only [substWithList, renderList]
      rw [← rename_eq, render_rename name ρ .atom t, renderList_rename name ρ ts]

/-- Printing depends only on the names of the variables that occur. -/
theorem render_congr {name name' : Nat → String} :
    ∀ (p : Prec) (t : Ty), (∀ v ∈ t.vars, name v = name' v) → t.render name p = t.render name' p
  | _, .var v, h => h v (by simp)
  | _, .prim _, _ => rfl
  | _, .list t, h => by
    simp only [render]
    rw [render_congr .atom t (by simpa using h)]
  | p, .tuple items, h => by
    simp only [render]
    rw [renderList_congr items (by simpa using h)]
  | p, .arrow a b, h => by
    simp only [render]
    rw [render_congr .tuple a (fun v hv => h v (by simp [hv])),
      render_congr .arrow b (fun v hv => h v (by simp [hv]))]
where
  /-- The list form of `render_congr`. -/
  renderList_congr : ∀ ts : List Ty, (∀ v ∈ varsList ts, name v = name' v) →
      renderList name ts = renderList name' ts
    | [], _ => rfl
    | t :: ts, h => by
      simp only [renderList]
      rw [render_congr .atom t (fun v hv => h v (by simp [hv])),
        renderList_congr ts (fun v hv => h v (by simp [hv]))]

/-- A permutation of the variables keeps their order of first occurrence. -/
theorem varsInOrder_rename (ρ : Equiv.Perm Nat) (t : Ty) :
    (t.rename ρ).varsInOrder = t.varsInOrder.map ρ := by
  rw [varsInOrder, varsInOrder, vars_rename, eraseDups_map_of_injective ρ.injective]

end Ty

/-- A closed scheme quantifies every variable of its body. -/
def Scheme.Closed (sc : Scheme) : Prop := ∀ v ∈ sc.ty.vars, v ∈ sc.vars

namespace Scheme

/-- A closed scheme letters every variable of its body, in order of first occurrence. -/
theorem Closed.namedVars_eq {sc : Scheme} (h : sc.Closed) : sc.namedVars = sc.ty.varsInOrder :=
  List.filter_eq_self.2 (fun v hv => decide_eq_true (h v (List.mem_eraseDups.1 hv)))

/-- Renaming a closed scheme by a permutation does not change how it prints: each variable
keeps its place in the order of first occurrence, so its letter. -/
theorem pretty_rename {sc sc' : Scheme} (hc : sc.Closed) (hc' : sc'.Closed) (ρ : Equiv.Perm Nat)
    (h : sc.ty.rename ρ = sc'.ty) : sc'.pretty = sc.pretty := by
  have hnamed : sc'.namedVars = sc.namedVars.map ρ := by
    rw [hc'.namedVars_eq, hc.namedVars_eq, ← h, Ty.varsInOrder_rename]
  -- each variable of the body is lettered, and its image gets the same letter
  have hname : ∀ v ∈ sc.ty.vars, sc'.varName (ρ v) = sc.varName v := by
    intro v hv
    obtain ⟨i, hi⟩ : ∃ i, sc.namedVars.idxOf? v = some i := Option.ne_none_iff_exists'.1
      (fun hnone => List.idxOf?_eq_none_iff.1 hnone
        (hc.namedVars_eq ▸ List.mem_eraseDups.2 hv))
    simp only [varName, hnamed, idxOf?_map_of_injective ρ.injective, hi]
  rw [pretty, pretty, ← h, Ty.render_rename]
  exact Ty.render_congr .arrow sc.ty hname

end Scheme

end HindleyMilner
