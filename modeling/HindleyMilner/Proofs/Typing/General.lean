import HindleyMilner.Proofs.Typing.Read
/-!
# More general environments

A scheme is *more general* than another when it has every instance the other has and no free
variable the other lacks (`Scheme.MoreGeneral`); an environment `Γ'` *generalizes* `Γ` when it
binds the same names to schemes at least as general (`TypeEnv.Generalizes`). Typing survives
generalizing the environment (`HasType.of_generalizes`): a variable keeps every instance it had,
and generalizing a type in a more general environment quantifies at least as much
(`TypeEnv.Generalizes.generalize`).

This is what completeness of inference needs at a `let`: the environment inference gives the
body binds the value's most general scheme, which, read under a later substitution, is at least
as general as any scheme a typing of the `let` may give the name
(`EnvRead.generalize_moreGeneral`).
-/

namespace HindleyMilner

/-- `sc` is at least as general as `sc'`: every instance of `sc'` is one of `sc`, and every free
variable of `sc` is free in `sc'`. -/
structure Scheme.MoreGeneral (sc sc' : Scheme) : Prop where
  instance_of : ∀ t, sc'.Instance t → sc.Instance t
  free_of : ∀ v ∈ sc.ty.vars, v ∉ sc.vars → v ∈ sc'.ty.vars ∧ v ∉ sc'.vars

theorem Scheme.MoreGeneral.refl (sc : Scheme) : sc.MoreGeneral sc :=
  ⟨fun _ h => h, fun _ hv hq => ⟨hv, hq⟩⟩

/-- `Γ'` generalizes `Γ`: the same names in the same order, each bound in `Γ'` to a scheme at
least as general as in `Γ`. -/
def TypeEnv.Generalizes (Γ Γ' : TypeEnv) : Prop :=
  TypeEnv.Pointwise (fun sc sc' => sc'.MoreGeneral sc) Γ Γ'

namespace TypeEnv.Generalizes

variable {Γ Γ' : TypeEnv} {sc sc' : Scheme}

theorem refl (Γ : TypeEnv) : Γ.Generalizes Γ :=
  List.forall₂_same.2 (fun _ _ => ⟨rfl, Scheme.MoreGeneral.refl _⟩)

theorem find? (h : Γ.Generalizes Γ') {x : String} (hx : Γ.find? x = some sc) :
    ∃ sc', Γ'.find? x = some sc' ∧ sc'.MoreGeneral sc :=
  Pointwise.find? h hx

theorem extend (h : Γ.Generalizes Γ') (x : String) (hs : sc'.MoreGeneral sc) :
    (Γ.extend x sc).Generalizes (Γ'.extend x sc') :=
  Pointwise.extend h x hs

theorem remove (h : Γ.Generalizes Γ') (x : String) : (Γ.remove x).Generalizes (Γ'.remove x) :=
  Pointwise.remove h x

theorem bindAll (h : Γ.Generalizes Γ') (Δ : List (String × Ty)) :
    (Γ.bindAll Δ).Generalizes (Γ'.bindAll Δ) :=
  Pointwise.bindAll h (List.forall₂_same.2 (fun _ _ => ⟨rfl, Scheme.MoreGeneral.refl _⟩))

/-- A free variable of the more general environment is free in the other. -/
theorem freeVars (h : Γ.Generalizes Γ') {w : Nat} (hw : w ∈ Γ'.freeVars) : w ∈ Γ.freeVars := by
  obtain ⟨e', he', hwe, hwq⟩ := TypeEnv.mem_freeVars.1 hw
  obtain ⟨e, he, -, hg⟩ := exists_of_forall₂_right h he'
  obtain ⟨hwe', hwq'⟩ := hg.free_of w hwe hwq
  exact TypeEnv.mem_freeVars_of_mem he hwe' hwq'

/-- Generalizing a type in the more general environment gives a more general scheme: fewer
variables are free there, so at least as many are quantified. -/
theorem generalize (h : Γ.Generalizes Γ') (t : Ty) :
    (Γ'.generalize t).MoreGeneral (Γ.generalize t) := by
  refine ⟨fun τ ⟨f, hf, hτ⟩ => ⟨f, fun v hv => hf v (fun hv' => hv ?_), hτ⟩, fun v hv hq => ?_⟩
  · -- a variable quantified in `Γ` is not free there, so not free in `Γ'` either
    obtain ⟨hvt, hvf⟩ := TypeEnv.mem_generalize_vars.1 hv'
    exact TypeEnv.mem_generalize_vars.2 ⟨hvt, fun hf' => hvf (h.freeVars hf')⟩
  · have hfree := h.freeVars (TypeEnv.mem_freeVars_of_generalize hv hq)
    exact ⟨hv, fun hq' => (TypeEnv.mem_generalize_vars.1 hq').2 hfree⟩

end TypeEnv.Generalizes

mutual

/-- Typing survives generalizing the environment. -/
theorem HasType.of_generalizes : ∀ {Γ : TypeEnv} {e : Expr} {τ : Ty}, HasType Γ e τ →
    ∀ {Γ' : TypeEnv}, Γ.Generalizes Γ' → HasType Γ' e τ
  | _, _, _, .lit hc, _, _ => .lit hc
  | _, _, _, .var hx hi, _, h => by
    obtain ⟨sc', hx', hg⟩ := h.find? hx
    exact .var hx' (hg.instance_of _ hi)
  | _, _, _, .binop hop hl hr, _, h => .binop hop (hl.of_generalizes h) (hr.of_generalizes h)
  | _, _, _, .ite hc ha hb, _, h =>
    .ite (hc.of_generalizes h) (ha.of_generalizes h) (hb.of_generalizes h)
  | _, _, _, .matchOn hne he harms, _, h =>
    .matchOn hne (he.of_generalizes h) (harms.of_generalizes h)
  | _, _, _, @HasType.letIn _ x _ _ t₁ _ h₁ h₂, _, h =>
    .letIn (h₁.of_generalizes h) (h₂.of_generalizes (h.extend x (h.generalize t₁)))
  | _, _, _, @HasType.letRec _ x _ _ t₁ _ h₁ h₂, _, h =>
    .letRec (h₁.of_generalizes (h.extend x (Scheme.MoreGeneral.refl _)))
      (h₂.of_generalizes (h.extend x ((h.remove x).generalize t₁)))
  | _, _, _, @HasType.lam _ _ _ _ _ Δ hp hb, _, h => .lam hp (hb.of_generalizes (h.bindAll Δ))
  | _, _, _, .tuple hitems, _, h => .tuple (hitems.of_generalizes h)
  | _, _, _, .cons hh ht, _, h => .cons (hh.of_generalizes h) (ht.of_generalizes h)
  | _, _, _, .app hf ha, _, h => .app (hf.of_generalizes h) (ha.of_generalizes h)

/-- The arms form of `HasType.of_generalizes`. -/
theorem ArmsHaveType.of_generalizes : ∀ {Γ : TypeEnv} {ts : Ty} {arms : List (Pattern × Expr)}
    {τ : Ty}, ArmsHaveType Γ ts arms τ → ∀ {Γ' : TypeEnv}, Γ.Generalizes Γ' →
    ArmsHaveType Γ' ts arms τ
  | _, _, _, _, .nil, _, _ => .nil
  | _, _, _, _, @ArmsHaveType.cons _ _ _ _ _ _ Δ hp hb hrest, _, h =>
    .cons hp (hb.of_generalizes (h.bindAll Δ)) (hrest.of_generalizes h)

/-- The list form of `HasType.of_generalizes`. -/
theorem ItemsHaveTypes.of_generalizes : ∀ {Γ : TypeEnv} {items : List Expr} {ts : List Ty},
    ItemsHaveTypes Γ items ts → ∀ {Γ' : TypeEnv}, Γ.Generalizes Γ' → ItemsHaveTypes Γ' items ts
  | _, _, _, .nil, _, _ => .nil
  | _, _, _, .cons he hes, _, h => .cons (he.of_generalizes h) (hes.of_generalizes h)

end

/-- Reading a generalized type: with the quantified variables renamed apart, generalizing in the
reading `Γ'` gives a scheme at least as general as generalizing the type read under `f`. -/
theorem EnvRead.generalize_moreGeneral {f : Nat → Ty} {Γ Γ' : TypeEnv} (hΓ : EnvRead f Γ Γ')
    (t : Ty) :
    (Γ'.generalize (t.substWith (renameApart Γ' (Γ.generalize t).vars f))).MoreGeneral
      (Γ'.generalize (t.substWith f)) := by
  -- a variable that is not generalized is free in `Γ`, so its image is free in `Γ'`
  have hkept : ∀ v ∈ t.vars, v ∉ (Γ.generalize t).vars → ∀ u ∈ (f v).vars, u ∈ Γ'.freeVars :=
    fun v hv hq u hu => hΓ.freeVars (TypeEnv.mem_freeVars_of_generalize hv hq) u hu
  refine ⟨fun τ ⟨g, hg, hτ⟩ => ?_, fun u hu hq => ?_⟩
  · -- the renamed variables go where `f` and then `g` send the originals
    refine ⟨fun u =>
      if u ∈ (Γ'.generalize (t.substWith (renameApart Γ' (Γ.generalize t).vars f))).vars then
        (f (u - bound Γ'.freeVars)).substWith g
      else .var u, fun u hu => if_neg hu, ?_⟩
    rw [← hτ, TypeEnv.generalize_ty, TypeEnv.generalize_ty, Ty.substWith_substWith,
      Ty.substWith_substWith]
    refine Ty.substWith_congr t (fun v hv => ?_)
    by_cases hq : v ∈ (Γ.generalize t).vars
    · have hmem : v + bound Γ'.freeVars ∈
          (Γ'.generalize (t.substWith (renameApart Γ' (Γ.generalize t).vars f))).vars := by
        refine TypeEnv.mem_generalize_vars.2 ⟨?_, renameApart_not_free Γ' v⟩
        rw [Ty.mem_vars_substWith]
        exact ⟨v, hv, by simp [renameApart, hq]⟩
      simp only [renameApart, if_pos hq, Ty.substWith, if_pos hmem, Nat.add_sub_cancel]
    · -- the image of a kept variable is free in `Γ'`: neither side moves it
      have hfree := hkept v hv hq
      simp only [renameApart, if_neg hq]
      rw [Ty.substWith_eq_self (fun u hu => if_neg (fun hu' =>
          (TypeEnv.mem_generalize_vars.1 hu').2 (hfree u hu))),
        Ty.substWith_eq_self (fun u hu => hg u (fun hu' =>
          (TypeEnv.mem_generalize_vars.1 hu').2 (hfree u hu)))]
  · -- a free variable of the renamed scheme is free in `Γ'`, so it is no renamed one
    have hfree : u ∈ Γ'.freeVars := TypeEnv.mem_freeVars_of_generalize hu hq
    refine ⟨?_, fun hq' => (TypeEnv.mem_generalize_vars.1 hq').2 hfree⟩
    rw [TypeEnv.generalize_ty, Ty.mem_vars_substWith] at hu ⊢
    obtain ⟨v, hv, huv⟩ := hu
    by_cases hqv : v ∈ (Γ.generalize t).vars
    · simp only [renameApart, if_pos hqv, Ty.vars_var, List.mem_singleton] at huv
      exact absurd (huv ▸ hfree) (renameApart_not_free Γ' v)
    · simp only [renameApart, if_neg hqv] at huv
      exact ⟨v, hv, huv⟩

end HindleyMilner
