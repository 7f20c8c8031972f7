import HindleyMilner.Typing
import HindleyMilner.Proofs.SortedMap
import HindleyMilner.Proofs.Subst.Resolved
/-!
# Free variables of environments, and capture

What the operations on environments do to their free variables:

* a free variable of an environment is free in the scheme of one of its entries
  (`mem_freeVars`);
* `extend` and `remove` add only the new scheme's free variables (`mem_freeVars_extend`,
  `mem_freeVars_remove`), and a type generalized in an environment quantifies exactly its
  variables that are not free there (`mem_generalize_vars`);
* after applying `s`, every free variable comes from the image of an old one
  (`mem_freeVars_applySubst`).

Applying a substitution to an environment does not rename quantified variables: it *captures*
when it sends a free variable of a scheme to a type that mentions a quantified variable of that
scheme. `TypeEnv.NoCapture` says that it does not, which holds when the substitution mentions no
quantified variable (`noCapture_of_not_quantifies`); then the images of the free variables are
all free afterwards (`mem_freeVars_applySubst_of_noCapture`).

Inference starts from an environment where the counter is *fresh* (`TypeEnv.Fresh`): names in
ascending order, every variable of a scheme below the counter, and no quantified variable free
in the environment. A run from `n` to `m` leaves in its results only variables *scoped* to the
environment: free in it, or drawn in `[n, m)` (`TypeEnv.Scoped`). A substitution of scoped
variables captures nothing (`Fresh.noCapture`), and applying it, or binding new names as
inference does, leaves the counter fresh (`Fresh.applySubst_of_scoped`, `Fresh.bindAll`, ...).
-/

namespace HindleyMilner

namespace TypeEnv

variable {env : TypeEnv} {s : Subst} {x : String} {sc : Scheme} {t : Ty} {n m w : Nat}

/-- A free variable of the environment is free in the scheme of some entry. -/
theorem mem_freeVars : w ∈ env.freeVars ↔ ∃ e ∈ env.entries, w ∈ e.2.ty.vars ∧ w ∉ e.2.vars := by
  simp [freeVars, Scheme.mem_freeVars]

theorem mem_freeVars_of_mem {e : String × Scheme} (he : e ∈ env.entries) (hw : w ∈ e.2.ty.vars)
    (hb : w ∉ e.2.vars) : w ∈ env.freeVars :=
  mem_freeVars.2 ⟨e, he, hw, hb⟩

/-- The free variables after binding `x` to `sc`: those of `sc`, and old ones. -/
theorem mem_freeVars_extend (h : w ∈ (env.extend x sc).freeVars) :
    (w ∈ sc.ty.vars ∧ w ∉ sc.vars) ∨ w ∈ env.freeVars := by
  obtain ⟨e, he, hw, hb⟩ := mem_freeVars.1 h
  rcases SortedMap.mem_entries_insert he with rfl | he
  · exact Or.inl ⟨hw, hb⟩
  · exact Or.inr (mem_freeVars_of_mem he hw hb)

theorem mem_freeVars_remove (h : w ∈ (env.remove x).freeVars) : w ∈ env.freeVars := by
  obtain ⟨e, he, hw, hb⟩ := mem_freeVars.1 h
  exact mem_freeVars_of_mem (SortedMap.mem_entries_erase.1 he).1 hw hb

@[simp] theorem generalize_ty : (env.generalize t).ty = t := rfl

/-- Generalizing quantifies the variables of the type that are not free in the environment. -/
theorem mem_generalize_vars {v : Nat} :
    v ∈ (env.generalize t).vars ↔ v ∈ t.vars ∧ v ∉ env.freeVars := by
  simp [generalize, Ty.varsInOrder, List.mem_eraseDups]

/-- The free variables of a generalized type are free in the environment. -/
theorem mem_freeVars_of_generalize {v : Nat} (hv : v ∈ t.vars) (hq : v ∉ (env.generalize t).vars) :
    v ∈ env.freeVars := by
  by_cases hf : v ∈ env.freeVars
  · exact hf
  · exact absurd (mem_generalize_vars.2 ⟨hv, hf⟩) hq

@[simp] theorem bindAll_nil : env.bindAll [] = env := rfl

@[simp] theorem bindAll_cons (b : String × Ty) (Δ : List (String × Ty)) :
    env.bindAll (b :: Δ) = (env.extend b.1 (.mono b.2)).bindAll Δ := rfl

theorem bindAll_append (Δ₁ Δ₂ : List (String × Ty)) :
    env.bindAll (Δ₁ ++ Δ₂) = (env.bindAll Δ₁).bindAll Δ₂ := by
  simp [bindAll, List.foldl_append]

/-- Looking a name up after binding names to monotypes: its last binding, if it has one. -/
theorem find?_bindAll (env : TypeEnv) (Δ : List (String × Ty)) (x : String) :
    (env.bindAll Δ).find? x =
      ((Δ.reverse.find? (fun b => b.1 = x)).map (fun b => Scheme.mono b.2)).or (env.find? x) := by
  induction Δ generalizing env with
  | nil => simp
  | cons b Δ ih =>
    rw [bindAll_cons, ih, List.reverse_cons, List.find?_append, Option.map_or, Option.or_assoc,
      find?_extend]
    by_cases hb : b.1 = x <;> simp [hb]

/-- A name that the bindings do not bind keeps its scheme. -/
theorem find?_bindAll_of_not_mem {Δ : List (String × Ty)} (hx : x ∉ Δ.map Prod.fst) :
    (env.bindAll Δ).find? x = env.find? x := by
  have hnone : Δ.reverse.find? (fun b => b.1 = x) = none :=
    List.find?_eq_none.2 (fun b hb hbx => hx (List.mem_map.2 ⟨b, List.mem_reverse.1 hb, by simpa using hbx⟩))
  rw [find?_bindAll, hnone]
  rfl

/-- A name that the bindings bind is found at a monotype. -/
theorem find?_bindAll_of_mem {Δ : List (String × Ty)} (hx : x ∈ Δ.map Prod.fst) :
    ∃ t, (env.bindAll Δ).find? x = some (.mono t) := by
  obtain ⟨b, hb, rfl⟩ := List.mem_map.1 hx
  obtain ⟨c, hc⟩ := Option.isSome_iff_exists.1 (List.find?_isSome.2
    ⟨b, List.mem_reverse.2 hb, by simp⟩ : (Δ.reverse.find? (fun c => c.1 = b.1)).isSome)
  exact ⟨c.2, by rw [find?_bindAll, hc]; rfl⟩

/-- Binding names to types read through `f` finds, for each name bound, its type read through
`f`, whatever the environments bound before. -/
theorem find?_bindAll_map (f : Nat → Ty) {Γ Γ' : TypeEnv} {Δ : List (String × Ty)}
    (hx : x ∈ Δ.map Prod.fst) :
    (Γ.bindAll (Δ.map fun b => (b.1, b.2.substWith f))).find? x =
      ((Γ'.bindAll Δ).find? x).map fun sc => .mono (sc.ty.substWith f) := by
  obtain ⟨b, hb, rfl⟩ := List.mem_map.1 hx
  obtain ⟨c, hc⟩ := Option.isSome_iff_exists.1 (List.find?_isSome.2
    ⟨b, List.mem_reverse.2 hb, by simp⟩ : (Δ.reverse.find? (fun c => c.1 = b.1)).isSome)
  -- the binding read through `f` is the last binding of the name, read through `f`
  have hmap : ((Δ.map fun b => (b.1, b.2.substWith f)).reverse.find? (fun c => c.1 = b.1)) =
      some (c.1, c.2.substWith f) := by
    rw [← List.map_reverse, List.find?_map]
    simp only [Function.comp_def, hc]
    rfl
  rw [find?_bindAll, find?_bindAll, hmap, hc]
  rfl

/-- The free variables after binding names to monotypes: old ones and those of the types. -/
theorem mem_freeVars_bindAll : ∀ {env : TypeEnv} {Δ : List (String × Ty)},
    w ∈ (env.bindAll Δ).freeVars → w ∈ env.freeVars ∨ ∃ b ∈ Δ, w ∈ b.2.vars
  | _, [], h => Or.inl h
  | _, b :: Δ, h => by
    rcases mem_freeVars_bindAll (Δ := Δ) h with h | ⟨c, hc, hw⟩
    · rcases mem_freeVars_extend h with ⟨hw, -⟩ | h
      · exact Or.inr ⟨b, List.mem_cons_self, hw⟩
      · exact Or.inl h
    · exact Or.inr ⟨c, List.mem_cons_of_mem _ hc, hw⟩

/-- A name just bound is found at its new scheme. -/
theorem find?_extend_self (env : TypeEnv) (x : String) (sc : Scheme) :
    (env.extend x sc).find? x = some sc := by
  simp

/-- Binding one name in one environment to two schemes gives two environments only when the
schemes differ. -/
theorem eq_of_extend_eq {sc' : Scheme} (h : env.extend x sc = env.extend x sc') : sc = sc' := by
  have hfind := congrArg (fun E : TypeEnv => E.find? x) h
  simpa only [find?_extend_self, Option.some.injEq] using hfind

/-- In an environment with its names in order, binding a name replaces its only entry. -/
theorem extend_remove (h : SortedMap.Sorted env) : (env.remove x).extend x sc = env.extend x sc :=
  SortedMap.insert_erase h x sc

theorem remove_extend : (env.extend x sc).remove x = env.remove x :=
  SortedMap.erase_insert env x sc

/-- An entry after applying `s` is an old entry with `s` applied to its body, the quantified
variables left out. -/
theorem mem_entries_applySubst {e : String × Scheme} (h : e ∈ (env.applySubst s).entries) :
    ∃ sc, (e.1, sc) ∈ env.entries ∧ e.2 = ⟨sc.vars, (s.without sc.vars).apply sc.ty⟩ :=
  SortedMap.mem_entries_mapValues h

theorem mem_entries_applySubst_of_mem {e : String × Scheme} (h : e ∈ env.entries) :
    (e.1, (⟨e.2.vars, (s.without e.2.vars).apply e.2.ty⟩ : Scheme)) ∈ (env.applySubst s).entries :=
  List.mem_map_of_mem h

/-- A variable of a scheme's body after applying `s` with the quantified variables `vs` left
out: a quantified variable, or a variable of the image of an unquantified one. -/
theorem mem_vars_apply_without {vs : List Nat} (h : w ∈ ((s.without vs).apply t).vars) :
    (w ∈ t.vars ∧ w ∈ vs) ∨ ∃ u ∈ t.vars, u ∉ vs ∧ w ∈ (s.image u).vars := by
  obtain ⟨u, hu, hw⟩ := Subst.mem_vars_apply.1 h
  rw [Subst.image_without] at hw
  by_cases huq : u ∈ vs
  · rw [if_pos huq] at hw
    rw [Ty.vars_var, List.mem_singleton] at hw
    subst hw
    exact Or.inl ⟨hu, huq⟩
  · rw [if_neg huq] at hw
    exact Or.inr ⟨u, hu, huq, hw⟩

/-- A free variable after applying `s` is a variable of the image of a free variable before. -/
theorem mem_freeVars_applySubst (h : w ∈ (env.applySubst s).freeVars) :
    ∃ u ∈ env.freeVars, w ∈ (s.image u).vars := by
  obtain ⟨e, he, hw, hb⟩ := mem_freeVars.1 h
  obtain ⟨sc, hsc, he2⟩ := mem_entries_applySubst he
  rw [he2] at hw hb
  rcases mem_vars_apply_without hw with ⟨-, hq⟩ | ⟨u, hu, huq, hwu⟩
  · exact absurd hq hb
  · exact ⟨u, mem_freeVars_of_mem hsc hu huq, hwu⟩

/-- Removing a name commutes with applying a substitution. -/
theorem applySubst_remove : (env.remove x).applySubst s = (env.applySubst s).remove x :=
  SortedMap.mapValues_erase _ _ _

/-- Rebinding a name to a type generalized without the name, in an environment that bound it
before a substitution was applied: the earlier binding is gone, as if the name had been removed
before the substitution. This is the environment a `let rec` gives its body. -/
theorem extend_generalizeRec_applySubst (h : SortedMap.Sorted env) :
    ((env.extend x sc).applySubst s).extend x
        (((env.extend x sc).applySubst s).generalizeRec t x) =
      ((env.remove x).applySubst s).extend x (((env.remove x).applySubst s).generalize t) := by
  have hsorted : SortedMap.Sorted ((env.extend x sc).applySubst s) :=
    (SortedMap.Sorted.insert h x sc).mapValues _
  rw [generalizeRec, ← extend_remove hsorted, ← applySubst_remove, remove_extend]

/-- Applying a substitution to a monomorphic binding applies it to the type. -/
theorem applySubst_extend_mono :
    (env.extend x (.mono t)).applySubst s = (env.applySubst s).extend x (.mono (s.apply t)) := by
  simp only [applySubst, extend, SortedMap.mapValues_insert, Scheme.mono_vars, Scheme.mono_ty]
  congr 2
  rw [Subst.apply_eq_substWith, Subst.apply_eq_substWith]
  exact Ty.substWith_congr t (fun v _ => by rw [Subst.image_without, if_neg (by simp)])

/-- Applying a substitution to monomorphic bindings applies it to their types. -/
theorem applySubst_bindAll :
    ∀ (env : TypeEnv) (Δ : List (String × Ty)),
      (env.bindAll Δ).applySubst s = (env.applySubst s).bindAll (Δ.map fun b => (b.1, s.apply b.2))
  | _, [] => rfl
  | env, b :: Δ => by
    rw [bindAll_cons, applySubst_bindAll _ Δ, applySubst_extend_mono]
    rfl

/-- A substitution that, with each scheme's quantified variables left out, binds no variable of
its body leaves the environment alone. -/
theorem applySubst_eq_self_of_without
    (h : ∀ e ∈ env.entries, ∀ v ∈ e.2.ty.vars, (s.without e.2.vars).find? v = none) :
    env.applySubst s = env := by
  obtain ⟨l⟩ := env
  simp only [applySubst, SortedMap.mapValues, SortedMap.mk.injEq]
  conv => rhs; rw [← List.map_id l]
  refine List.map_congr_left (fun e he => ?_)
  rw [Subst.apply_eq_self_of_free (h e he)]
  rfl

/-- A substitution that binds no variable of the environment's bodies leaves it alone. -/
theorem applySubst_eq_self (h : ∀ e ∈ env.entries, ∀ v ∈ e.2.ty.vars, s.find? v = none) :
    env.applySubst s = env :=
  applySubst_eq_self_of_without fun e he v hv => by
    rw [Subst.find?_without]
    split
    · rfl
    · exact h e he v hv

/-- `w` is quantified by the scheme of some entry of `env`. -/
def Quantifies (env : TypeEnv) (w : Nat) : Prop := ∃ e ∈ env.entries, w ∈ e.2.vars

theorem quantifies_applySubst (h : (env.applySubst s).Quantifies w) : env.Quantifies w := by
  obtain ⟨e, he, hw⟩ := h
  obtain ⟨sc, hsc, he2⟩ := mem_entries_applySubst he
  rw [he2] at hw
  exact ⟨_, hsc, hw⟩

theorem quantifies_remove (h : (env.remove x).Quantifies w) : env.Quantifies w := by
  obtain ⟨e, he, hw⟩ := h
  exact ⟨e, (SortedMap.mem_entries_erase.1 he).1, hw⟩

theorem quantifies_extend (h : (env.extend x sc).Quantifies w) :
    w ∈ sc.vars ∨ env.Quantifies w := by
  obtain ⟨e, he, hw⟩ := h
  rcases SortedMap.mem_entries_insert he with rfl | he
  · exact Or.inl hw
  · exact Or.inr ⟨e, he, hw⟩

/-- Monomorphic bindings quantify nothing. -/
theorem quantifies_bindAll : ∀ {env : TypeEnv} {Δ : List (String × Ty)},
    (env.bindAll Δ).Quantifies w → env.Quantifies w
  | _, [], h => h
  | _, b :: Δ, h => by
    rcases quantifies_extend (quantifies_bindAll (Δ := Δ) h) with hw | hw
    · simp at hw
    · exact hw

/-- Applying `s` to `env` captures nothing: no free variable of a scheme is sent to a type that
mentions a quantified variable of that scheme. -/
def NoCapture (env : TypeEnv) (s : Subst) : Prop :=
  ∀ e ∈ env.entries, ∀ u ∈ e.2.ty.vars, u ∉ e.2.vars → ∀ b ∈ e.2.vars, b ∉ (s.image u).vars

/-- A substitution that mentions no quantified variable captures nothing. -/
theorem noCapture_of_not_quantifies (hs : ∀ w, s.Mentions w → ¬ env.Quantifies w) :
    env.NoCapture s := by
  intro e he u _ hub b hb hbu
  rcases Subst.mem_vars_image hbu with ⟨tu, htu, hbt⟩ | ⟨-, rfl⟩
  · exact hs b (Subst.mentions_of_find? htu (Or.inr hbt)) ⟨e, he, hb⟩
  · exact hub hb

/-- Without capture, the images of the free variables are free after applying `s`. -/
theorem mem_freeVars_applySubst_of_noCapture (hnc : env.NoCapture s) {u : Nat}
    (hu : u ∈ env.freeVars) (hw : w ∈ (s.image u).vars) : w ∈ (env.applySubst s).freeVars := by
  obtain ⟨e, he, hue, hub⟩ := mem_freeVars.1 hu
  refine mem_freeVars_of_mem (mem_entries_applySubst_of_mem he) ?_
    (fun hwq => hnc e he u hue hub w hwq hw)
  refine Subst.mem_vars_apply.2 ⟨u, hue, ?_⟩
  rw [Subst.image_without, if_neg hub]
  exact hw

/-- `w` is free in `env` or drawn in `[n, m)`: the variables a run of inference from `n` to `m`
may leave in its results. -/
def Scoped (env : TypeEnv) (n m w : Nat) : Prop := w ∈ env.freeVars ∨ (n ≤ w ∧ w < m)

namespace Scoped

theorem mono {m' : Nat} (h : env.Scoped n m w) (hm : m ≤ m') : env.Scoped n m' w := by
  rcases h with h | h
  · exact Or.inl h
  · exact Or.inr ⟨h.1, by omega⟩

theorem drawn {k : Nat} (hnk : n ≤ k) (hw : k ≤ w ∧ w < m) : env.Scoped n m w :=
  Or.inr ⟨by omega, hw.2⟩

/-- The free variables of `env'.applySubst s` are scoped when those of `env'` and `s` are. -/
theorem of_applySubst {env' : TypeEnv} (hfree : ∀ u ∈ env'.freeVars, env.Scoped n m u)
    (hs : ∀ u, s.Mentions u → env.Scoped n m u) (hw : w ∈ (env'.applySubst s).freeVars) :
    env.Scoped n m w := by
  obtain ⟨u, hu, hwu⟩ := mem_freeVars_applySubst hw
  rcases Subst.mem_vars_image hwu with ⟨tu, htu, hwt⟩ | ⟨-, rfl⟩
  · exact hs w (Subst.mentions_of_find? htu (Or.inr hwt))
  · exact hfree w hu

/-- A variable of `s.apply t` is scoped when `s` and `t` are. -/
theorem apply (hs : ∀ w, s.Mentions w → env.Scoped n m w) (ht : ∀ w ∈ t.vars, env.Scoped n m w)
    (hw : w ∈ (s.apply t).vars) : env.Scoped n m w := by
  obtain ⟨u, hu, hwu⟩ := Subst.mem_vars_apply.1 hw
  rcases Subst.mem_vars_image hwu with ⟨tu, htu, hwt⟩ | ⟨-, rfl⟩
  · exact hs w (Subst.mentions_of_find? htu (Or.inr hwt))
  · exact ht w hu

end Scoped

/-- Every variable in the body of a scheme of `env` is below `n`. -/
def VarsBelow (env : TypeEnv) (n : Nat) : Prop := ∀ e ∈ env.entries, ∀ v ∈ e.2.ty.vars, v < n

/-- Binding names to types of variables below `m` keeps every variable below `m`. -/
theorem VarsBelow.bindAll {Δ : List (String × Ty)} (h : env.VarsBelow n) (hnm : n ≤ m)
    (hΔ : ∀ b ∈ Δ, ∀ v ∈ b.2.vars, v < m) : (env.bindAll Δ).VarsBelow m := by
  induction Δ generalizing env n with
  | nil => exact fun e he v hv => Nat.lt_of_lt_of_le (h e he v hv) hnm
  | cons b Δ ih =>
    refine ih (n := m) (fun e he v hv => ?_) (Nat.le_refl m)
      (fun c hc => hΔ c (List.mem_cons_of_mem b hc))
    rcases SortedMap.mem_entries_insert he with rfl | he
    · exact hΔ _ List.mem_cons_self v hv
    · exact Nat.lt_of_lt_of_le (h e he v hv) hnm

/-- The counter `n` is fresh for `env`: the names are in ascending order, every variable of a
scheme, quantified or not, is below `n`, and no quantified variable is free in `env`. -/
structure Fresh (env : TypeEnv) (n : Nat) : Prop where
  sorted : SortedMap.Sorted env
  vars_lt : ∀ e ∈ env.entries, ∀ v ∈ e.2.ty.vars, v < n
  quantified_lt : ∀ w, env.Quantifies w → w < n
  quantified_not_free : ∀ w, env.Quantifies w → w ∉ env.freeVars

namespace Fresh

/-- Every counter is fresh for the empty environment. -/
theorem empty (n : Nat) : TypeEnv.empty.Fresh n where
  sorted := SortedMap.sorted_empty
  vars_lt _ he := absurd he List.not_mem_nil
  quantified_lt _ hw := absurd hw (fun ⟨_, he, _⟩ => List.not_mem_nil he)
  quantified_not_free _ hw := absurd hw (fun ⟨_, he, _⟩ => List.not_mem_nil he)

theorem freeVars_lt (h : env.Fresh n) (hw : w ∈ env.freeVars) : w < n := by
  obtain ⟨e, he, hw, -⟩ := mem_freeVars.1 hw
  exact h.vars_lt e he w hw

theorem mono (h : env.Fresh n) (hnm : n ≤ m) : env.Fresh m where
  sorted := h.sorted
  vars_lt e he v hv := Nat.lt_of_lt_of_le (h.vars_lt e he v hv) hnm
  quantified_lt w hw := Nat.lt_of_lt_of_le (h.quantified_lt w hw) hnm
  quantified_not_free := h.quantified_not_free

/-- A scoped variable is quantified nowhere in `env`. -/
theorem not_quantifies (h : env.Fresh n) (hw : env.Scoped n m w) : ¬ env.Quantifies w := by
  intro hq
  rcases hw with hw | ⟨hn, -⟩
  · exact h.quantified_not_free w hq hw
  · exact absurd (h.quantified_lt w hq) (Nat.not_lt.2 hn)

/-- A substitution scoped from `n` captures nothing. -/
theorem noCapture (h : env.Fresh n) (hs : ∀ w, s.Mentions w → env.Scoped n m w) :
    env.NoCapture s :=
  noCapture_of_not_quantifies (fun w hw => h.not_quantifies (hs w hw))

/-- Applying a substitution that mentions variables below `m` and no quantified variable leaves
the counter `m` fresh. -/
theorem applySubst (h : env.Fresh n) (hnm : n ≤ m)
    (hs : ∀ w, s.Mentions w → w < m ∧ ¬ env.Quantifies w) : (env.applySubst s).Fresh m := by
  refine ⟨h.sorted.mapValues _, fun e he v hv => ?_, fun w hw => ?_, fun b hb hbf => ?_⟩
  · obtain ⟨sc, hsc, he2⟩ := mem_entries_applySubst he
    rw [he2] at hv
    rcases mem_vars_apply_without hv with ⟨hv, -⟩ | ⟨u, hu, -, hvu⟩
    · exact Nat.lt_of_lt_of_le (h.vars_lt _ hsc v hv) hnm
    · -- a variable of an image is the variable itself or one that `s` mentions
      rcases Subst.mem_vars_image hvu with ⟨tu, htu, hvt⟩ | ⟨-, rfl⟩
      · exact (hs v (Subst.mentions_of_find? htu (Or.inr hvt))).1
      · exact Nat.lt_of_lt_of_le (h.vars_lt _ hsc v hu) hnm
  · exact Nat.lt_of_lt_of_le (h.quantified_lt w (quantifies_applySubst hw)) hnm
  · have hb' := quantifies_applySubst hb
    obtain ⟨u, hu, hbu⟩ := mem_freeVars_applySubst hbf
    rcases Subst.mem_vars_image hbu with ⟨tu, htu, hbt⟩ | ⟨-, rfl⟩
    · exact (hs b (Subst.mentions_of_find? htu (Or.inr hbt))).2 hb'
    · exact h.quantified_not_free b hb' hu

/-- Applying a substitution scoped from `n` to `m` leaves the counter `m` fresh. -/
theorem applySubst_of_scoped (h : env.Fresh n) (hnm : n ≤ m)
    (hs : ∀ w, s.Mentions w → env.Scoped n m w) : (env.applySubst s).Fresh m := by
  refine h.applySubst hnm (fun w hw => ⟨?_, h.not_quantifies (hs w hw)⟩)
  rcases hs w hw with hf | ⟨-, hlt⟩
  · exact Nat.lt_of_lt_of_le (h.freeVars_lt hf) hnm
  · exact hlt

theorem remove (h : env.Fresh n) : (env.remove x).Fresh n where
  sorted := h.sorted.erase x
  vars_lt e he := h.vars_lt e (SortedMap.mem_entries_erase.1 he).1
  quantified_lt w hw := h.quantified_lt w (quantifies_remove hw)
  quantified_not_free w hw hwf :=
    h.quantified_not_free w (quantifies_remove hw) (mem_freeVars_remove hwf)

/-- Binding a name to a type generalized in the environment keeps the counter fresh. -/
theorem extend_generalize (h : env.Fresh n) (ht : ∀ v ∈ t.vars, v < n) :
    (env.extend x (env.generalize t)).Fresh n := by
  -- the new scheme's free variables are free in `env` already
  have hfree : ∀ w, w ∈ (env.extend x (env.generalize t)).freeVars → w ∈ env.freeVars := by
    intro w hw
    rcases mem_freeVars_extend hw with ⟨hwt, hwq⟩ | hw
    · exact mem_freeVars_of_generalize hwt hwq
    · exact hw
  refine ⟨h.sorted.insert x _, fun e he v hv => ?_, fun w hw => ?_, fun w hw hwf => ?_⟩
  · rcases SortedMap.mem_entries_insert he with rfl | he
    · exact ht v hv
    · exact h.vars_lt e he v hv
  · rcases quantifies_extend hw with hw | hw
    · exact ht w (mem_generalize_vars.1 hw).1
    · exact h.quantified_lt w hw
  · rcases quantifies_extend hw with hw | hw
    · exact (mem_generalize_vars.1 hw).2 (hfree w hwf)
    · exact h.quantified_not_free w hw (hfree w hwf)

/-- Binding a name to a type of variables at or above every quantified variable keeps the
counter fresh. -/
theorem extend_mono (h : env.Fresh m) (ht : ∀ v ∈ t.vars, v < m ∧ ¬ env.Quantifies v) :
    (env.extend x (.mono t)).Fresh m := by
  refine ⟨h.sorted.insert x _, fun e he v hv => ?_, fun w hw => ?_, fun w hw hwf => ?_⟩
  · rcases SortedMap.mem_entries_insert he with rfl | he
    · exact (ht v hv).1
    · exact h.vars_lt e he v hv
  · rcases quantifies_extend hw with hw | hw
    · simp at hw
    · exact h.quantified_lt w hw
  · rcases quantifies_extend hw with hw | hw
    · simp at hw
    · -- the new type mentions no quantified variable
      rcases mem_freeVars_extend hwf with ⟨hwt, -⟩ | hwf
      · exact (ht w hwt).2 hw
      · exact h.quantified_not_free w hw hwf

/-- Binding a name to the variable drawn next keeps the counter, one step on, fresh. -/
theorem extend_placeholder (h : env.Fresh n) (x : String) :
    (env.extend x (.mono (.var n))).Fresh (n + 1) :=
  (h.mono (Nat.le_succ n)).extend_mono (fun v hv => by
    simp only [Ty.vars_var, List.mem_singleton] at hv
    subst hv
    exact ⟨Nat.lt_succ_self v, fun hq => Nat.lt_irrefl v (h.quantified_lt v hq)⟩)

/-- Binding names to types of variables drawn in `[n, m)` leaves the counter `m` fresh. -/
theorem bindAll (h : env.Fresh n) (hnm : n ≤ m) :
    ∀ {Δ : List (String × Ty)}, (∀ b ∈ Δ, ∀ v ∈ b.2.vars, n ≤ v ∧ v < m) →
      (env.bindAll Δ).Fresh m := by
  -- the quantified variables stay those of `env` while the bindings are added
  suffices ∀ (Δ : List (String × Ty)) (env' : TypeEnv), env'.Fresh m →
      (∀ w, env'.Quantifies w → env.Quantifies w) →
      (∀ b ∈ Δ, ∀ v ∈ b.2.vars, n ≤ v ∧ v < m) → (env'.bindAll Δ).Fresh m by
    intro Δ hΔ
    exact this Δ env (h.mono hnm) (fun _ hw => hw) hΔ
  intro Δ
  induction Δ with
  | nil => exact fun _ h _ _ => h
  | cons b Δ ih =>
    intro env' h' hq hΔ
    have hb := hΔ b List.mem_cons_self
    refine ih _ (h'.extend_mono (fun v hv => ⟨(hb v hv).2, fun hv' => ?_⟩)) (fun w hw => ?_)
      (fun c hc => hΔ c (List.mem_cons_of_mem _ hc))
    · exact absurd (h.quantified_lt v (hq v hv')) (Nat.not_lt.2 (hb v hv).1)
    · rcases quantifies_extend hw with hw | hw
      · simp at hw
      · exact hq w hw

end Fresh

end TypeEnv

end HindleyMilner
