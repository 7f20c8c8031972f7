import HindleyMilner.Proofs.Printer
import HindleyMilner.Proofs.Renaming
import HindleyMilner.Proofs.TypeEnv
import Mathlib.Order.Monotone.Basic
import Mathlib.Data.List.Basic
/-!
# Renaming the variables of every kind of data

Inference treats type variables as names: it compares them for equality and, in finite maps,
orders them. Renaming every variable by a map `ρ` that keeps them apart (injective) and in
order (strictly monotone) therefore commutes with every operation it performs. This module
renames each kind of data: types (`Ty.rename`, already part of the library), schemes, finite
maps with their keys, substitutions, environments and the types an error carries. For each
operation on them it proves that renaming before is renaming after:

* a look-up of a renamed key is the renamed look-up (`SortedMap.find?_map`), and inserting
  commutes with renaming when `ρ` keeps the keys in order (`SortedMap.insert_map`);
* applying, removing bindings from and assigning in a substitution (`Subst.apply_rename`,
  `Subst.without_rename`, `Subst.assign_rename`);
* applying a substitution to an environment, and generalizing in it
  (`TypeEnv.applySubst_rename`, `TypeEnv.generalize_rename`).
-/

namespace HindleyMilner

variable {ρ : Nat → Nat}

namespace Ty

@[simp] theorem rename_var (v : Nat) : (var v).rename ρ = var (ρ v) := rfl

@[simp] theorem rename_prim (p : Prim) : (prim p).rename ρ = prim p := rfl

@[simp] theorem rename_arrow (a b : Ty) : (arrow a b).rename ρ = arrow (a.rename ρ) (b.rename ρ) :=
  rfl

@[simp] theorem rename_list (t : Ty) : (list t).rename ρ = list (t.rename ρ) := rfl

@[simp] theorem rename_tuple (items : List Ty) :
    (tuple items).rename ρ = tuple (items.map (rename ρ)) := by
  simp only [rename_eq, substWith, substWithList_eq_map]
  rfl

/-- Renaming after a replacement renames each image. -/
theorem rename_substWith (f : Nat → Ty) (t : Ty) :
    (t.substWith f).rename ρ = t.substWith (fun v => (f v).rename ρ) := by
  rw [rename_eq, substWith_substWith]
  rfl

/-- A replacement after a renaming replaces each renamed variable. -/
theorem substWith_rename (g : Nat → Ty) (t : Ty) :
    (t.rename ρ).substWith g = t.substWith (fun v => g (ρ v)) := by
  rw [rename_eq, substWith_substWith]
  rfl

theorem rename_rename (σ : Nat → Nat) (t : Ty) : (t.rename σ).rename ρ = t.rename (ρ ∘ σ) :=
  substWith_rename _ t

/-- A renaming that fixes every variable of a type fixes the type. -/
theorem rename_eq_self {t : Ty} (h : ∀ v ∈ t.vars, ρ v = v) : t.rename ρ = t :=
  substWith_eq_self (fun v hv => by rw [h v hv])

/-- An injective renaming tells types apart: it has a left inverse. -/
theorem rename_injective (hρ : Function.Injective ρ) : Function.Injective (rename ρ) := by
  intro a b hab
  have hinv : ∀ t : Ty, (t.rename ρ).rename (Function.invFun ρ) = t := fun t => by
    rw [rename_rename]
    exact rename_eq_self (fun v _ => Function.leftInverse_invFun hρ v)
  rw [← hinv a, hab, hinv b]

/-- An injective renaming keeps whether a variable occurs. -/
theorem occurs_rename (hρ : Function.Injective ρ) (v : Nat) (t : Ty) :
    (t.rename ρ).occurs (ρ v) = t.occurs v := by
  rw [Bool.eq_iff_iff, occurs_iff, occurs_iff, vars_rename, List.mem_map_of_injective hρ]

/-- Replacing one variable commutes with an injective renaming. -/
theorem substVar_rename (hρ : Function.Injective ρ) (t : Ty) (v : Nat) (u : Ty) :
    (t.substVar v u).rename ρ = (t.rename ρ).substVar (ρ v) (u.rename ρ) := by
  rw [substVar, substVar, rename_substWith, substWith_rename]
  refine substWith_congr t (fun w _ => ?_)
  by_cases hw : w = v
  · simp [hw]
  · simp [hw, hρ.ne hw]

/-- An injective renaming keeps the order of first occurrence. -/
theorem varsInOrder_rename_of_injective (hρ : Function.Injective ρ) (t : Ty) :
    (t.rename ρ).varsInOrder = t.varsInOrder.map ρ := by
  rw [varsInOrder, varsInOrder, vars_rename, eraseDups_map_of_injective hρ]

end Ty

/-- Renames the variables of a scheme, quantified or not. -/
def Scheme.rename (ρ : Nat → Nat) (sc : Scheme) : Scheme := ⟨sc.vars.map ρ, sc.ty.rename ρ⟩

@[simp] theorem Scheme.rename_mono (t : Ty) : (Scheme.mono t).rename ρ = .mono (t.rename ρ) := rfl

/-- Renames the variables an error mentions. -/
def TypeError.rename (ρ : Nat → Nat) : TypeError → TypeError
  | .occursCheck v t => .occursCheck (ρ v) (t.rename ρ)
  | .unboundVariable name => .unboundVariable name
  | .mismatch a b => .mismatch (a.rename ρ) (b.rename ρ)
  | .constructorPattern name => .constructorPattern name
  | .emptyMatch => .emptyMatch
  | .constructorExpr name => .constructorExpr name
  | .variantExpr tag => .variantExpr tag
  | .typeDefinition name => .typeDefinition name

/-- The outcome of a computation with its variables renamed: its result by `f`, and the types an
error carries by `ρ`. -/
def renameResult {α : Type} (ρ : Nat → Nat) (f : α → α) : Except TypeError α → Except TypeError α
  | .ok a => .ok (f a)
  | .error e => .error (e.rename ρ)

@[simp] theorem renameResult_ok {α : Type} (f : α → α) (a : α) :
    renameResult ρ f (.ok a) = .ok (f a) := rfl

@[simp] theorem renameResult_error {α : Type} (f : α → α) (e : TypeError) :
    renameResult ρ f (.error e) = .error (e.rename ρ) := rfl

namespace SortedMap

variable {κ κ' α β : Type}

/-- Renames the keys by `f` and maps the values by `g`, entry by entry. -/
def map (f : κ → κ') (g : α → β) (m : SortedMap κ α) : SortedMap κ' β :=
  ⟨m.entries.map (fun e => (f e.1, g e.2))⟩

/-- A look-up of a renamed key is the look-up of the key, mapped. -/
theorem find?_map [DecidableEq κ] [DecidableEq κ'] {f : κ → κ'} (hf : Function.Injective f)
    (g : α → β) (m : SortedMap κ α) (k : κ) : (m.map f g).find? (f k) = (m.find? k).map g := by
  obtain ⟨l⟩ := m
  simp only [find?, map, List.find?_map, Option.map_map]
  congr 1
  · congr 1
    funext e
    simp [hf.eq_iff]

/-- Keeping the entries of renamed keys that pass a test is renaming the entries that pass it. -/
theorem filter_map {f : κ → κ'} {g : α → β} {p : κ' → Bool} {q : κ → Bool}
    (h : ∀ k, p (f k) = q k) (m : SortedMap κ α) :
    (m.map f g).filter (fun k _ => p k) = (m.filter (fun k _ => q k)).map f g := by
  obtain ⟨l⟩ := m
  simp only [filter, map, List.filter_map, mk.injEq]
  congr 1
  congr 1
  funext e
  simp [h]

/-- Inserting a renamed entry is renaming the insertion, when the renaming keeps keys in order. -/
theorem insert_map {f : Nat → Nat} (hf : StrictMono f) (g : α → β) (m : SortedMap Nat α) (k : Nat)
    (v : α) : (m.map f g).insert (f k) (g v) = (m.insert k v).map f g := by
  obtain ⟨l⟩ := m
  simp only [insert, map, mk.injEq]
  induction l with
  | nil => simp [insertEntry]
  | cons e rest ih =>
    by_cases he : e.1 = k
    · simp [insertEntry, he]
    · by_cases hlt : k < e.1
      · simp [insertEntry, he, hlt, hf.injective.ne he, hf.lt_iff_lt]
      · simp [insertEntry, he, hlt, hf.injective.ne he, hf.lt_iff_lt, ih]

/-- The map of renamed entries is the renamed map of the entries. -/
theorem ofList_map {f : Nat → Nat} (hf : StrictMono f) (g : α → β) (l : List (Nat × α)) :
    ofList (l.map (fun e => (f e.1, g e.2))) = (ofList l).map f g := by
  unfold ofList
  suffices ∀ m : SortedMap Nat α, (l.map (fun e => (f e.1, g e.2))).foldl
      (fun m e => m.insert e.1 e.2) (m.map f g) = (l.foldl (fun m e => m.insert e.1 e.2) m).map f g
    from this empty
  induction l with
  | nil => intro m; rfl
  | cons e rest ih =>
    intro m
    simp only [List.map_cons, List.foldl_cons]
    rw [insert_map hf, ih]

end SortedMap

namespace Subst

/-- Renames the keys and the variables of the targets of a substitution. -/
def rename (ρ : Nat → Nat) (s : Subst) : Subst := s.map ρ (Ty.rename ρ)

variable (hρ : Function.Injective ρ)
include hρ

theorem find?_rename (s : Subst) (v : Nat) :
    (s.rename ρ).find? (ρ v) = (s.find? v).map (Ty.rename ρ) :=
  SortedMap.find?_map hρ _ s v

theorem image_rename (s : Subst) (v : Nat) : (s.rename ρ).image (ρ v) = (s.image v).rename ρ := by
  unfold image
  rw [find?_rename hρ]
  cases s.find? v <;> rfl

/-- Applying a renamed substitution to a renamed type renames the application. -/
theorem apply_rename (s : Subst) (t : Ty) :
    (s.rename ρ).apply (t.rename ρ) = (s.apply t).rename ρ := by
  rw [apply_eq_substWith, apply_eq_substWith, Ty.substWith_rename, Ty.rename_substWith]
  simp only [image_rename hρ]

theorem without_rename (s : Subst) (vs : List Nat) :
    (s.rename ρ).without (vs.map ρ) = (s.without vs).rename ρ :=
  SortedMap.filter_map (fun k => by simp [List.mem_map_of_injective hρ]) s

omit hρ in
/-- Assigning a renamed binding is renaming the assignment, when the renaming keeps the
variables apart and in order. -/
theorem assign_rename (hρ : StrictMono ρ) (s : Subst) (v : Nat) (t : Ty) :
    (s.rename ρ).assign (ρ v) (t.rename ρ) = (s.assign v t).rename ρ := by
  have hvals : (s.rename ρ).mapValues (·.substVar (ρ v) (t.rename ρ)) =
      Subst.rename ρ (s.mapValues (·.substVar v t)) := by
    obtain ⟨l⟩ := s
    simp only [rename, SortedMap.map, SortedMap.mapValues, List.map_map, SortedMap.mk.injEq]
    exact List.map_congr_left (fun e _ => by simp [Ty.substVar_rename hρ.injective])
  rw [assign, hvals]
  exact SortedMap.insert_map hρ _ _ v t

end Subst

namespace TypeEnv

/-- Renames the variables of every scheme of an environment. -/
def rename (ρ : Nat → Nat) (env : TypeEnv) : TypeEnv := env.mapValues (Scheme.rename ρ)

variable {env : TypeEnv} {x : String} {sc : Scheme}

@[simp] theorem find?_rename : (env.rename ρ).find? x = (env.find? x).map (Scheme.rename ρ) :=
  SortedMap.find?_mapValues _ env x

theorem extend_rename : (env.rename ρ).extend x (sc.rename ρ) = (env.extend x sc).rename ρ :=
  (SortedMap.mapValues_insert env _ x sc).symm

theorem remove_rename : (env.rename ρ).remove x = (env.remove x).rename ρ :=
  (SortedMap.mapValues_erase env _ x).symm

/-- Applying a renamed substitution to a renamed environment renames the application. -/
theorem applySubst_rename (hρ : Function.Injective ρ) (s : Subst) :
    (env.rename ρ).applySubst (s.rename ρ) = (env.applySubst s).rename ρ := by
  obtain ⟨l⟩ := env
  simp only [rename, applySubst, SortedMap.mapValues, List.map_map, SortedMap.mk.injEq]
  refine List.map_congr_left (fun e _ => ?_)
  simp [Scheme.rename, Subst.without_rename hρ, Subst.apply_rename hρ]

/-- A renamed variable is free in the renamed environment exactly when the variable is free. -/
theorem mem_freeVars_rename (hρ : Function.Injective ρ) (v : Nat) :
    ρ v ∈ (env.rename ρ).freeVars ↔ v ∈ env.freeVars := by
  simp only [mem_freeVars, rename, SortedMap.mapValues, List.mem_map]
  constructor
  · rintro ⟨_, ⟨e, he, rfl⟩, hv, hq⟩
    simp only [Scheme.rename, Ty.vars_rename, List.mem_map_of_injective hρ] at hv hq
    exact ⟨e, he, hv, hq⟩
  · rintro ⟨e, he, hv, hq⟩
    refine ⟨_, ⟨e, he, rfl⟩, ?_⟩
    simp only [Scheme.rename, Ty.vars_rename, List.mem_map_of_injective hρ]
    exact ⟨hv, hq⟩

/-- Generalizing a renamed type in a renamed environment renames the scheme. -/
theorem generalize_rename (hρ : Function.Injective ρ) (t : Ty) :
    (env.rename ρ).generalize (t.rename ρ) = (env.generalize t).rename ρ := by
  simp only [generalize, Scheme.rename, Ty.varsInOrder_rename_of_injective hρ, List.filter_map,
    Scheme.mk.injEq, and_true]
  congr 2
  funext v
  simp [mem_freeVars_rename hρ]

theorem generalizeRec_rename (hρ : Function.Injective ρ) (t : Ty) :
    (env.rename ρ).generalizeRec (t.rename ρ) x = (env.generalizeRec t x).rename ρ := by
  rw [generalizeRec, generalizeRec, remove_rename, generalize_rename hρ]

/-- A renaming that fixes every variable of an environment fixes the environment. -/
theorem rename_eq_self (h : ∀ e ∈ env.entries, ∀ v, v ∈ e.2.vars ∨ v ∈ e.2.ty.vars → ρ v = v) :
    env.rename ρ = env := by
  obtain ⟨l⟩ := env
  simp only [rename, SortedMap.mapValues, SortedMap.mk.injEq]
  conv_rhs => rw [← List.map_id l]
  refine List.map_congr_left (fun e he => ?_)
  have hvars : e.2.vars.map ρ = e.2.vars := by
    conv_rhs => rw [← List.map_id e.2.vars]
    exact List.map_congr_left (fun v hv => h e he v (Or.inl hv))
  simp only [Scheme.rename, hvars, Ty.rename_eq_self (fun v hv => h e he v (Or.inr hv)), id]

end TypeEnv

end HindleyMilner
