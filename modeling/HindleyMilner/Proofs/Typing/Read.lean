import Mathlib.Data.List.Forall2
import HindleyMilner.Proofs.TypeEnv
/-!
# Reading typings through a substitution

Inference derives facts about an environment and a type under a substitution that later steps
refine further. To say what such a fact means under a later refinement `f : Nat → Ty`, an
environment is *read* under `f`: each free variable `v` of a scheme becomes `f v`, and the
scheme's quantified variables are renamed apart from what `f` brings in (`SchemeRead`,
`EnvRead`). Quantified variables are renamed, never replaced, so a reading captures nothing,
where `TypeEnv.applySubst` may.

* A reading keeps instances: an instance of a scheme, replaced by `f`, is an instance of the
  scheme read (`SchemeRead.instance_substWith`).
* Reading commutes with what typing does to environments: look-up, `extend`, `remove` and
  `bindAll` (`EnvRead.find?`, `EnvRead.extend`, ...), and generalization, the newly quantified
  variables renamed to fresh ones (`SchemeRead.generalize`), for instance past every free
  variable of the reading (`renameApart`, `SchemeRead.generalize_apart`). These hold of any
  relation between the schemes of two environments with the same names in the same order
  (`TypeEnv.Pointwise`), and are proved once for it.
* A reading depends on `f` only at free variables (`EnvRead.congr`). When `f` absorbs `σ` and
  `σ` captures nothing, a reading of `env` under `f` is a reading of `env.applySubst σ`
  (`EnvRead.applySubst`); and `env.applySubst σ` is itself a reading of `env` under `σ`
  (`envRead_applySubst`).

Pattern and operator typing have no binders: a replacement keeps them as they are
(`PatType.substWith`, `OpType.substWith`).
-/

namespace HindleyMilner

/-- `sc'` reads `sc` under `f`, with the quantified variables renamed by `ρ`. -/
structure SchemeReadBy (f : Nat → Ty) (ρ : Nat → Nat) (sc sc' : Scheme) : Prop where
  /-- A quantified variable that occurs is renamed to a quantified variable. -/
  bound_mem : ∀ v ∈ sc.ty.vars, v ∈ sc.vars → ρ v ∈ sc'.vars
  /-- Distinct quantified variables that occur stay distinct. -/
  inj : ∀ v ∈ sc.ty.vars, ∀ w ∈ sc.ty.vars, v ∈ sc.vars → w ∈ sc.vars → ρ v = ρ w → v = w
  /-- The image of a free variable mentions no quantified variable of `sc'`. -/
  free_avoid : ∀ v ∈ sc.ty.vars, v ∉ sc.vars → ∀ u ∈ (f v).vars, u ∉ sc'.vars
  /-- The body: quantified variables renamed, free ones replaced. -/
  ty_eq : sc'.ty = sc.ty.substWith (fun v => if v ∈ sc.vars then .var (ρ v) else f v)

/-- `sc'` reads `sc` under `f`, for some renaming of the quantified variables. -/
def SchemeRead (f : Nat → Ty) (sc sc' : Scheme) : Prop := ∃ ρ, SchemeReadBy f ρ sc sc'

/-- `Γ'` reads `Γ` under `f`: the same names in the same order, each scheme read under `f`. -/
def EnvRead (f : Nat → Ty) (Γ Γ' : TypeEnv) : Prop :=
  List.Forall₂ (fun a b => a.1 = b.1 ∧ SchemeRead f a.2 b.2) Γ.entries Γ'.entries

/-- `List.Forall₂` weakened one related pair at a time, knowing where the left one stands. -/
theorem forall₂_imp_of_mem {α β : Type} {R S : α → β → Prop} :
    ∀ {l : List α} {l' : List β}, List.Forall₂ R l l' → (∀ a ∈ l, ∀ b, R a b → S a b) →
      List.Forall₂ S l l'
  | [], [], .nil, _ => .nil
  | a :: _, b :: _, .cons hab hrest, himp =>
    .cons (himp a List.mem_cons_self b hab)
      (forall₂_imp_of_mem hrest (fun a' ha' => himp a' (List.mem_cons_of_mem _ ha')))

/-- A member of the left list is related to a member of the right one. -/
theorem exists_of_forall₂ {α β : Type} {R : α → β → Prop} {a : α} :
    ∀ {l : List α} {l' : List β}, List.Forall₂ R l l' → a ∈ l → ∃ b ∈ l', R a b
  | [], _, .nil, ha => absurd ha List.not_mem_nil
  | _ :: _, b :: _, .cons hab hrest, ha => by
    rcases List.mem_cons.1 ha with rfl | ha
    · exact ⟨b, List.mem_cons_self, hab⟩
    · obtain ⟨b', hb', hab'⟩ := exists_of_forall₂ hrest ha
      exact ⟨b', List.mem_cons_of_mem _ hb', hab'⟩

/-- A member of the right list is related to a member of the left one. -/
theorem exists_of_forall₂_right {α β : Type} {R : α → β → Prop} {b : β} :
    ∀ {l : List α} {l' : List β}, List.Forall₂ R l l' → b ∈ l' → ∃ a ∈ l, R a b
  | _, [], .nil, hb => absurd hb List.not_mem_nil
  | a :: _, _ :: _, .cons hab hrest, hb => by
    rcases List.mem_cons.1 hb with rfl | hb
    · exact ⟨a, List.mem_cons_self, hab⟩
    · obtain ⟨a', ha', hab'⟩ := exists_of_forall₂_right hrest hb
      exact ⟨a', List.mem_cons_of_mem _ ha', hab'⟩

/-- Two environments with the same names in the same order, their schemes related by `P`. -/
def TypeEnv.Pointwise (P : Scheme → Scheme → Prop) (Γ Γ' : TypeEnv) : Prop :=
  List.Forall₂ (fun a b => a.1 = b.1 ∧ P a.2 b.2) Γ.entries Γ'.entries

namespace TypeEnv.Pointwise

variable {P : Scheme → Scheme → Prop} {Γ Γ' : TypeEnv} {sc sc' : Scheme}

/-- A name bound on the left is bound on the right, to a related scheme. -/
theorem find? (h : Pointwise P Γ Γ') {x : String} (hx : Γ.find? x = some sc) :
    ∃ sc', Γ'.find? x = some sc' ∧ P sc sc' := by
  obtain ⟨l⟩ := Γ
  obtain ⟨l'⟩ := Γ'
  simp only [Pointwise] at h
  simp only [SortedMap.find?, Option.map_eq_some_iff] at hx ⊢
  induction h with
  | nil => simp at hx
  | @cons a b as bs hab _ ih =>
    by_cases hax : a.1 = x
    · rw [List.find?_cons_of_pos (by simp [hax])] at hx
      obtain ⟨e, he, rfl⟩ := hx
      cases he
      exact ⟨b.2, ⟨b, List.find?_cons_of_pos (by simp [← hab.1, hax]), rfl⟩, hab.2⟩
    · rw [List.find?_cons_of_neg (by simp [hax])] at hx
      obtain ⟨sc', ⟨e, he, hsc'⟩, hread⟩ := ih hx
      exact ⟨sc', ⟨e, by rw [List.find?_cons_of_neg (by simp [← hab.1, hax])]; exact he, hsc'⟩,
        hread⟩

/-- A name bound on the right is bound on the left, to a related scheme. -/
theorem find?_right (h : Pointwise P Γ Γ') {x : String} (hx : Γ'.find? x = some sc') :
    ∃ sc, Γ.find? x = some sc ∧ P sc sc' :=
  find? (P := fun a b => P b a) (h.flip.imp (fun _ _ hab => ⟨hab.1.symm, hab.2⟩)) hx

/-- A relation between schemes that implies another relates environments it relates. -/
theorem imp {Q : Scheme → Scheme → Prop} (h : Pointwise P Γ Γ')
    (hPQ : ∀ sc sc', P sc sc' → Q sc sc') : Pointwise Q Γ Γ' :=
  List.Forall₂.imp (fun _ _ hab => ⟨hab.1, hPQ _ _ hab.2⟩) h

/-- The right side has its names in ascending order when the left side has. -/
theorem sorted (h : Pointwise P Γ Γ') (hs : SortedMap.Sorted Γ) : SortedMap.Sorted Γ' := by
  obtain ⟨l⟩ := Γ
  obtain ⟨l'⟩ := Γ'
  simp only [Pointwise, SortedMap.Sorted] at h hs ⊢
  induction h with
  | nil => exact List.Pairwise.nil
  | @cons a b as bs hab hrest ih =>
    obtain ⟨ha, has⟩ := List.pairwise_cons.1 hs
    refine List.pairwise_cons.2 ⟨fun b' hb' => ?_, ih has⟩
    obtain ⟨a', ha', hab'⟩ := exists_of_forall₂_right hrest hb'
    rw [← hab.1, ← hab'.1]
    exact ha a' ha'

/-- Binding a name on both sides to related schemes keeps the relation. -/
theorem extend (h : Pointwise P Γ Γ') (x : String) (hs : P sc sc') :
    Pointwise P (Γ.extend x sc) (Γ'.extend x sc') := by
  obtain ⟨l⟩ := Γ
  obtain ⟨l'⟩ := Γ'
  simp only [Pointwise, TypeEnv.extend, SortedMap.insert] at h ⊢
  induction h with
  | nil => exact .cons ⟨rfl, hs⟩ .nil
  | @cons a b as bs hab hrest ih =>
    -- both lists take the same branch, since their keys agree
    rw [SortedMap.insertEntry, SortedMap.insertEntry, hab.1]
    by_cases hbx : b.1 = x
    · rw [if_pos hbx, if_pos hbx]
      exact .cons ⟨rfl, hs⟩ hrest
    · rw [if_neg hbx, if_neg hbx]
      by_cases hlt : x < b.1
      · rw [if_pos hlt, if_pos hlt]
        exact .cons ⟨rfl, hs⟩ (.cons hab hrest)
      · rw [if_neg hlt, if_neg hlt]
        exact .cons hab ih

/-- Removing a name on both sides keeps the relation. -/
theorem remove (h : Pointwise P Γ Γ') (x : String) : Pointwise P (Γ.remove x) (Γ'.remove x) := by
  obtain ⟨l⟩ := Γ
  obtain ⟨l'⟩ := Γ'
  simp only [Pointwise, TypeEnv.remove, SortedMap.erase, SortedMap.filter] at h ⊢
  induction h with
  | nil => exact .nil
  | @cons a b as bs hab hrest ih =>
    by_cases hbx : b.1 = x
    · rw [List.filter_cons_of_neg (by simp [hab.1, hbx]), List.filter_cons_of_neg (by simp [hbx])]
      exact ih
    · rw [List.filter_cons_of_pos (by simp [hab.1, hbx]), List.filter_cons_of_pos (by simp [hbx])]
      exact .cons hab ih

/-- Binding the same names on both sides to monotypes whose schemes are related keeps the
relation. -/
theorem bindAll : ∀ {Γ Γ' : TypeEnv} {Δ Δ' : List (String × Ty)}, Pointwise P Γ Γ' →
    List.Forall₂ (fun b b' => b.1 = b'.1 ∧ P (.mono b.2) (.mono b'.2)) Δ Δ' →
    Pointwise P (Γ.bindAll Δ) (Γ'.bindAll Δ')
  | _, _, [], [], h, .nil => h
  | _, _, b :: _, b' :: _, h, .cons hb hΔ => by
    rw [TypeEnv.bindAll_cons, TypeEnv.bindAll_cons, ← hb.1]
    exact bindAll (h.extend b.1 hb.2) hΔ

end TypeEnv.Pointwise

variable {f g : Nat → Ty} {ρ : Nat → Nat} {sc sc' : Scheme} {t : Ty}

namespace SchemeReadBy

/-- The instance of the read scheme that matches the instance `g` of `sc`: at a renamed
quantified variable it is `g` and then `f`, elsewhere the identity. -/
def instanceMap (f g : Nat → Ty) (ρ : Nat → Nat) (sc : Scheme) (w : Nat) : Ty :=
  match sc.ty.vars.find? (fun v => v ∈ sc.vars ∧ ρ v = w) with
  | some v => (g v).substWith f
  | none => .var w

theorem instanceMap_of_not_mem (h : SchemeReadBy f ρ sc sc') {w : Nat} (hw : w ∉ sc'.vars) :
    instanceMap f g ρ sc w = .var w := by
  unfold instanceMap
  split
  · rename_i v hfind
    have hv := List.find?_some hfind
    simp only [decide_eq_true_eq] at hv
    exact absurd (hv.2 ▸ h.bound_mem v (List.mem_of_find?_eq_some hfind) hv.1) hw
  · rfl

theorem instanceMap_rename (h : SchemeReadBy f ρ sc sc') {v : Nat} (hv : v ∈ sc.ty.vars)
    (hq : v ∈ sc.vars) : instanceMap f g ρ sc (ρ v) = (g v).substWith f := by
  unfold instanceMap
  split
  · rename_i v' hfind
    have hv' := List.find?_some hfind
    simp only [decide_eq_true_eq] at hv'
    -- the renaming is injective on the quantified variables that occur
    rw [h.inj v' (List.mem_of_find?_eq_some hfind) v hv hv'.1 hq hv'.2]
  · rename_i hfind
    have hnone := List.find?_eq_none.1 hfind v hv
    simp only [decide_eq_true_eq, not_and] at hnone
    exact (hnone hq trivial).elim

end SchemeReadBy

namespace SchemeRead

/-- A reading depends on `f` only at the free variables of the scheme. -/
theorem congr (h : SchemeRead f sc sc') (hfg : ∀ v ∈ sc.ty.vars, v ∉ sc.vars → g v = f v) :
    SchemeRead g sc sc' := by
  obtain ⟨ρ, hρ⟩ := h
  refine ⟨ρ, hρ.bound_mem, hρ.inj, fun v hv hq => ?_, ?_⟩
  · rw [hfg v hv hq]
    exact hρ.free_avoid v hv hq
  · rw [hρ.ty_eq]
    refine Ty.substWith_congr _ (fun v hv => ?_)
    by_cases hq : v ∈ sc.vars
    · rw [if_pos hq, if_pos hq]
    · rw [if_neg hq, if_neg hq, hfg v hv hq]

/-- A monotype is read by replacing. -/
theorem mono (f : Nat → Ty) (t : Ty) : SchemeRead f (.mono t) (.mono (t.substWith f)) := by
  refine ⟨id, fun _ _ hq => by simp at hq, fun _ _ _ _ hq => by simp at hq,
    fun _ _ _ _ _ hu => by simp at hu, ?_⟩
  simp only [Scheme.mono_ty, Scheme.mono_vars]
  exact Ty.substWith_congr t (fun v _ => by simp)

/-- An instance of `sc`, replaced by `f`, is an instance of every reading of `sc` under `f`. -/
theorem instance_substWith (h : SchemeRead f sc sc') (hi : sc.Instance t) :
    sc'.Instance (t.substWith f) := by
  obtain ⟨ρ, hρ⟩ := h
  obtain ⟨g, hg, rfl⟩ := hi
  refine ⟨SchemeReadBy.instanceMap f g ρ sc, fun w hw => hρ.instanceMap_of_not_mem hw, ?_⟩
  rw [hρ.ty_eq, Ty.substWith_substWith, Ty.substWith_substWith]
  refine Ty.substWith_congr _ (fun v hv => ?_)
  by_cases hq : v ∈ sc.vars
  · rw [if_pos hq]
    exact hρ.instanceMap_rename hv hq
  · -- a free variable: its image mentions no renamed variable, and `g` keeps it
    rw [if_neg hq, hg v hq]
    exact Ty.substWith_eq_self (fun u hu => hρ.instanceMap_of_not_mem (hρ.free_avoid v hv hq u hu))

/-- A reading under `f` is one of the scheme with `σ` applied, when `f` absorbs `σ` and `σ` sends
no free variable of the scheme to a type mentioning a quantified one. -/
theorem applySubst {σ : Subst} (h : SchemeRead f sc sc') (hσ : AbsorbsSubst f σ)
    (hnc : ∀ u ∈ sc.ty.vars, u ∉ sc.vars → ∀ b ∈ sc.vars, b ∉ (σ.image u).vars) :
    SchemeRead f ⟨sc.vars, (σ.without sc.vars).apply sc.ty⟩ sc' := by
  obtain ⟨ρ, hρ⟩ := h
  -- the quantified variables of the new body are those of the old one
  have hbound : ∀ v ∈ ((σ.without sc.vars).apply sc.ty).vars, v ∈ sc.vars → v ∈ sc.ty.vars := by
    intro v hv hq
    rcases TypeEnv.mem_vars_apply_without hv with ⟨hv, -⟩ | ⟨u, hu, huq, hvu⟩
    · exact hv
    · exact absurd hvu (hnc u hu huq v hq)
  refine ⟨ρ, fun v hv hq => hρ.bound_mem v (hbound v hv hq) hq,
    fun v hv w hw hqv hqw => hρ.inj v (hbound v hv hqv) w (hbound w hw hqw) hqv hqw,
    fun v hv hq u hu => ?_, ?_⟩
  · rcases TypeEnv.mem_vars_apply_without hv with ⟨-, hq'⟩ | ⟨w, hw, hwq, hvw⟩
    · exact absurd hq' hq
    · -- `f v` is part of `f w`, since `f` absorbs `σ`
      have hu' : u ∈ (f w).vars := by
        rw [← hσ w, Ty.mem_vars_substWith]
        exact ⟨v, hvw, hu⟩
      exact hρ.free_avoid w hw hwq u hu'
  · dsimp only
    rw [hρ.ty_eq, Subst.apply_eq_substWith, Ty.substWith_substWith]
    refine Ty.substWith_congr _ (fun v hv => ?_)
    rw [Subst.image_without]
    by_cases hq : v ∈ sc.vars
    · rw [if_pos hq, if_pos hq]
      simp only [Ty.substWith]
      rw [if_pos hq]
    · rw [if_neg hq, if_neg hq, ← hσ v]
      refine Ty.substWith_congr _ (fun u hu => ?_)
      rw [if_neg (fun huq => hnc v hv hq u huq hu)]

end SchemeRead

namespace EnvRead

variable {Γ Γ' : TypeEnv}

/-- A name bound in the environment is bound in every reading, to a reading of its scheme. -/
theorem find? (h : EnvRead f Γ Γ') {x : String} (hx : Γ.find? x = some sc) :
    ∃ sc', Γ'.find? x = some sc' ∧ SchemeRead f sc sc' :=
  TypeEnv.Pointwise.find? h hx

/-- A name bound in a reading is bound in the environment read, to a scheme it reads. -/
theorem find?_right (h : EnvRead f Γ Γ') {x : String} (hx : Γ'.find? x = some sc') :
    ∃ sc, Γ.find? x = some sc ∧ SchemeRead f sc sc' :=
  TypeEnv.Pointwise.find?_right h hx

/-- The image of a free variable is free in every reading. -/
theorem freeVars (h : EnvRead f Γ Γ') {w : Nat} (hw : w ∈ Γ.freeVars) :
    ∀ u ∈ (f w).vars, u ∈ Γ'.freeVars := by
  intro u hu
  obtain ⟨e, he, hwe, hwq⟩ := TypeEnv.mem_freeVars.1 hw
  obtain ⟨e', he', -, ρ, hρ⟩ := exists_of_forall₂ h he
  refine TypeEnv.mem_freeVars_of_mem he' ?_ (hρ.free_avoid w hwe hwq u hu)
  rw [hρ.ty_eq, Ty.mem_vars_substWith]
  exact ⟨w, hwe, by rw [if_neg hwq]; exact hu⟩

/-- A reading has its names in ascending order when the environment read has. -/
theorem sorted (h : EnvRead f Γ Γ') (hs : SortedMap.Sorted Γ) : SortedMap.Sorted Γ' :=
  TypeEnv.Pointwise.sorted h hs

/-- Binding a name keeps a reading, when the new schemes are read. -/
theorem extend (h : EnvRead f Γ Γ') (x : String) (hs : SchemeRead f sc sc') :
    EnvRead f (Γ.extend x sc) (Γ'.extend x sc') :=
  TypeEnv.Pointwise.extend h x hs

/-- Removing a name keeps a reading. -/
theorem remove (h : EnvRead f Γ Γ') (x : String) : EnvRead f (Γ.remove x) (Γ'.remove x) :=
  TypeEnv.Pointwise.remove h x

/-- Binding names to monotypes keeps a reading, the types replaced by `f`. -/
theorem bindAll (h : EnvRead f Γ Γ') (Δ : List (String × Ty)) :
    EnvRead f (Γ.bindAll Δ) (Γ'.bindAll (Δ.map fun b => (b.1, b.2.substWith f))) :=
  TypeEnv.Pointwise.bindAll h (List.forall₂_map_right_iff.2
    (List.forall₂_same.2 (fun b _ => ⟨rfl, SchemeRead.mono f b.2⟩)))

/-- A reading depends on `f` only at the free variables of the environment. -/
theorem congr (h : EnvRead f Γ Γ') (hfg : ∀ w ∈ Γ.freeVars, g w = f w) : EnvRead g Γ Γ' :=
  forall₂_imp_of_mem h (fun _ ha _ hab =>
    ⟨hab.1, hab.2.congr (fun v hv hq => hfg v (TypeEnv.mem_freeVars_of_mem ha hv hq))⟩)

/-- A reading under `f` of `Γ` is one of `Γ.applySubst σ`, when `f` absorbs `σ` and applying `σ`
captures nothing. -/
theorem applySubst {σ : Subst} (h : EnvRead f Γ Γ') (hσ : AbsorbsSubst f σ)
    (hnc : Γ.NoCapture σ) : EnvRead f (Γ.applySubst σ) Γ' := by
  unfold EnvRead TypeEnv.applySubst SortedMap.mapValues
  rw [List.forall₂_map_left_iff]
  exact forall₂_imp_of_mem h (fun a ha b hab => ⟨hab.1, hab.2.applySubst hσ (hnc a ha)⟩)

end EnvRead

/-- Applying `σ` to an environment without capture reads it under `σ`, renaming nothing. -/
theorem envRead_applySubst {Γ : TypeEnv} {σ : Subst} (hnc : Γ.NoCapture σ) :
    EnvRead σ.image Γ (Γ.applySubst σ) := by
  unfold EnvRead TypeEnv.applySubst SortedMap.mapValues
  rw [List.forall₂_map_right_iff, List.forall₂_same]
  intro e he
  dsimp only
  refine ⟨rfl, id, fun _ _ hq => hq, fun _ _ _ _ _ _ h => h,
    fun v hv hq u hu huq => hnc e he v hv hq u huq hu, ?_⟩
  rw [Subst.apply_eq_substWith]
  refine Ty.substWith_congr _ (fun v _ => ?_)
  rw [Subst.image_without]
  rfl

/-- Generalizing commutes with reading: the variables that `t` has and `Γ` does not are renamed
by `ρ`, injective on them and with images not free in the reading `Γ'`, and the others are
replaced by `f`. -/
theorem SchemeRead.generalize {Γ Γ' : TypeEnv} (hΓ : EnvRead f Γ Γ')
    (hinj : ∀ v ∈ t.vars, ∀ w ∈ t.vars, v ∉ Γ.freeVars → w ∉ Γ.freeVars → ρ v = ρ w → v = w)
    (hfresh : ∀ v ∈ t.vars, v ∉ Γ.freeVars → ρ v ∉ Γ'.freeVars) :
    SchemeRead f (Γ.generalize t) (Γ'.generalize
      (t.substWith (fun v => if v ∈ (Γ.generalize t).vars then .var (ρ v) else f v))) := by
  refine ⟨ρ, fun v hv hq => ?_, fun v hv w hw hqv hqw => ?_, fun v hv hq u hu => ?_, rfl⟩
  · rw [TypeEnv.generalize_ty] at hv
    have hvq := (TypeEnv.mem_generalize_vars.1 hq).2
    refine TypeEnv.mem_generalize_vars.2 ⟨?_, hfresh v hv hvq⟩
    rw [Ty.mem_vars_substWith]
    exact ⟨v, hv, by rw [if_pos hq]; exact List.mem_singleton_self _⟩
  · exact hinj v hv w hw (TypeEnv.mem_generalize_vars.1 hqv).2 (TypeEnv.mem_generalize_vars.1 hqw).2
  · -- a variable that is not quantified is free in `Γ`, so its image is free in `Γ'`
    rw [TypeEnv.generalize_ty] at hv
    have hfree := TypeEnv.mem_freeVars_of_generalize hv hq
    exact fun hu' => (TypeEnv.mem_generalize_vars.1 hu').2 (hΓ.freeVars hfree u hu)

/-- `f` with the variables of `q` renamed past every free variable of `Γ'`: a reading of a
generalized scheme, whose quantified variables must not meet what `Γ'` has free. -/
def renameApart (Γ' : TypeEnv) (q : List Nat) (f : Nat → Ty) (v : Nat) : Ty :=
  if v ∈ q then .var (v + bound Γ'.freeVars) else f v

theorem renameApart_not_free (Γ' : TypeEnv) (v : Nat) : v + bound Γ'.freeVars ∉ Γ'.freeVars :=
  fun hv => absurd (lt_bound hv) (Nat.not_lt.2 (Nat.le_add_left _ v))

/-- Generalizing in a reading `Γ'` the type read with the quantified variables renamed apart
reads the generalized scheme. -/
theorem SchemeRead.generalize_apart {Γ Γ' : TypeEnv} (hΓ : EnvRead f Γ Γ') (t : Ty) :
    SchemeRead f (Γ.generalize t)
      (Γ'.generalize (t.substWith (renameApart Γ' (Γ.generalize t).vars f))) :=
  SchemeRead.generalize hΓ (fun _ _ _ _ _ _ h => Nat.add_right_cancel h)
    (fun v _ _ => renameApart_not_free Γ' v)

/-- A replacement keeps the type of a constant. -/
theorem ConstType.substWith {c : Const} (h : ConstType c t) : ConstType c (t.substWith f) := by
  cases h with
  | int v => exact .int v
  | bool b => exact .bool b
  | str s => exact .str s
  | unit => exact .unit
  | nil t => exact .nil (t.substWith f)

/-- A replacement keeps the types of an operator: only a comparison has a type to replace. -/
theorem OpType.substWith {op : BinOp} {l r res : Ty} (h : OpType op l r res) :
    OpType op (l.substWith f) (r.substWith f) (res.substWith f) := by
  cases h with
  | arithmetic hc => exact .arithmetic hc
  | comparison _ hc => exact .comparison _ hc
  | boolean hc => exact .boolean hc

mutual

/-- A replacement keeps pattern typing: patterns have no binders of types. -/
theorem PatType.substWith (f : Nat → Ty) {p : Pattern} {t : Ty} {Δ : List (String × Ty)} :
    PatType p t Δ → PatType p (t.substWith f) (Δ.map fun b => (b.1, b.2.substWith f))
  | .any t => .any _
  | .lit hc => .lit hc.substWith
  | .var x t => .var x _
  | .cons hh ht => by
    rw [List.map_append]
    exact .cons (PatType.substWith f hh) (PatType.substWith f ht)
  | .tuple hs => .tuple (PatTypes.substWith f hs)

/-- The list form of `PatType.substWith`. -/
theorem PatTypes.substWith (f : Nat → Ty) {ps : List Pattern} {ts : List Ty}
    {Δ : List (String × Ty)} :
    PatTypes ps ts Δ → PatTypes ps (Ty.substWithList f ts) (Δ.map fun b => (b.1, b.2.substWith f))
  | .nil => .nil
  | .cons h hs => by
    rw [List.map_append]
    exact .cons (PatType.substWith f h) (PatTypes.substWith f hs)

end

end HindleyMilner
