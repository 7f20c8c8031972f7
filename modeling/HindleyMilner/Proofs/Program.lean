import HindleyMilner.Proofs.Infer.Orders
import HindleyMilner.Proofs.Printer
import HindleyMilner.Infer.Program
import Mathlib.Data.Set.Function
/-!
# Typing programs in either component order

A program is typed declaration by declaration from the empty environment, so every environment
on the way binds its names to closed schemes (`TypeEnv.Closed`). Typed in the two component
orders, the environments stay *renamed* copies of each other: the same names in the same order,
bound to closed schemes whose bodies differ by a permutation of the variables
(`TypeEnv.Renamed`). Renamed closed environments generalize each other, so the typing rules type
the same expressions in both, and inference, sound and complete in each, succeeds in both alike
(`Expr.infer_ok_of_renamed`). A binding adds in each the generalization of a type of which the
other's is an instance (`inferBinding_instance_of_renamed`), so the two new schemes are renamed
too (`Decl.infer_renamed`). Renamed closed schemes print alike (`Scheme.pretty_rename`), which
gives the agreement of the two orders on programs (`inferProgram_orders_agree`), and together
with the agreement on expressions, `component_orders_agree`.
-/

namespace HindleyMilner

open InferM

/-- The scheme that quantifies every variable of `t`, in order of first occurrence, is closed. -/
theorem Scheme.closed_varsInOrder (t : Ty) : Scheme.Closed ⟨t.varsInOrder, t⟩ :=
  fun _ hv => List.mem_eraseDups.2 hv

namespace Scheme.Closed

variable {sc sc' : Scheme} {f : Nat → Ty}

/-- A reading of a closed scheme renames its variables, distinct ones apart, and is closed. -/
theorem of_read (hc : sc.Closed) (h : SchemeRead f sc sc') :
    sc'.Closed ∧ ∃ ρ : Nat → Nat, Set.InjOn ρ {v | v ∈ sc.ty.vars} ∧ sc'.ty = sc.ty.rename ρ := by
  obtain ⟨ρ, hρ⟩ := h
  have hty : sc'.ty = sc.ty.rename ρ := by
    rw [hρ.ty_eq, Ty.rename_eq]
    exact Ty.substWith_congr _ (fun v hv => if_pos (hc v hv))
  refine ⟨fun u hu => ?_, ρ, fun v hv w hw hvw => hρ.inj v hv w hw (hc v hv) (hc w hw) hvw, hty⟩
  rw [hty, Ty.rename_eq, Ty.mem_vars_substWith] at hu
  obtain ⟨v, hv, hu⟩ := hu
  rw [Ty.vars_var, List.mem_singleton] at hu
  exact hu ▸ hρ.bound_mem v hv (hc v hv)

/-- An instance of a reading of a closed scheme is an instance of the scheme. -/
theorem instance_of_read (hc : sc.Closed) (h : SchemeRead f sc sc') {t : Ty}
    (hi : sc'.Instance t) : sc.Instance t := by
  obtain ⟨-, ρ, -, hty⟩ := hc.of_read h
  obtain ⟨φ, -, rfl⟩ := hi
  refine ⟨fun v => if v ∈ sc.vars then φ (ρ v) else .var v, fun v hv => if_neg hv, ?_⟩
  rw [hty, Ty.rename_eq, Ty.substWith_substWith]
  exact Ty.substWith_congr _ (fun v hv => if_pos (hc v hv))

/-- A reading of a closed scheme has the scheme's body as an instance: its renaming is undone
on the variables of the body. -/
theorem read_instance_self (hc : sc.Closed) (h : SchemeRead f sc sc') : sc'.Instance sc.ty := by
  obtain ⟨hc', ρ, hinj, hty⟩ := hc.of_read h
  refine ⟨fun u => if u ∈ sc'.vars then .var (Function.invFunOn ρ {v | v ∈ sc.ty.vars} u)
    else .var u, fun u hu => if_neg hu, ?_⟩
  rw [hty, Ty.rename_eq, Ty.substWith_substWith]
  refine Ty.substWith_eq_self (fun v hv => ?_)
  have hρv : ρ v ∈ sc'.vars := hc' _ (by
    rw [hty, Ty.rename_eq, Ty.mem_vars_substWith]
    exact ⟨v, hv, List.mem_singleton_self _⟩)
  rw [Ty.substWith, if_pos hρv, hinj.leftInvOn_invFunOn hv]

/-- A closed scheme is at least as general as any scheme whose body it renames by a
permutation. -/
theorem moreGeneral_of_rename (hc' : sc'.Closed) (ρ : Equiv.Perm Nat)
    (h : sc.ty.rename ρ = sc'.ty) : sc'.MoreGeneral sc := by
  refine ⟨fun t ⟨φ, _, ht⟩ => ?_, fun v hv hq => absurd (hc' v hv) hq⟩
  refine ⟨fun v => if v ∈ sc'.vars then φ (ρ.symm v) else .var v, fun v hv => if_neg hv, ?_⟩
  rw [← h, Ty.rename_eq, Ty.substWith_substWith, ← ht]
  refine Ty.substWith_congr _ (fun v hv => ?_)
  have hρv : ρ v ∈ sc'.vars := hc' _ (by rw [← h, Ty.vars_rename]; exact List.mem_map_of_mem hv)
  simp only [Ty.substWith, if_pos hρv, Equiv.symm_apply_apply]

end Scheme.Closed

/-- An environment whose schemes are all closed. -/
def TypeEnv.Closed (env : TypeEnv) : Prop := ∀ e ∈ env.entries, e.2.Closed

namespace TypeEnv.Closed

variable {env : TypeEnv}

theorem not_mem_freeVars (h : env.Closed) {w : Nat} : w ∉ env.freeVars := fun hw => by
  obtain ⟨e, he, hwe, hwq⟩ := TypeEnv.mem_freeVars.1 hw
  exact hwq (h e he w hwe)

theorem remove (h : env.Closed) (x : String) : (env.remove x).Closed :=
  fun e he => h e (SortedMap.mem_entries_erase.1 he).1

/-- No substitution reaches into a closed environment. -/
theorem applySubst (h : env.Closed) (s : Subst) : env.applySubst s = env :=
  TypeEnv.applySubst_eq_self_of_without fun e he v hv => by
    rw [Subst.find?_without, if_pos (h e he v hv)]

/-- A closed environment is its own reading under any replacement. -/
theorem envRead (h : env.Closed) (f : Nat → Ty) : EnvRead f env env := by
  refine List.forall₂_same.2 (fun e he => ⟨rfl, id, ⟨fun v _ hq => hq,
    fun v _ w _ _ _ hvw => hvw, fun v hv hq => absurd (h e he v hv) hq, ?_⟩⟩)
  exact (Ty.substWith_eq_self (fun v hv => if_pos (h e he v hv))).symm

/-- Generalizing in a closed environment quantifies every variable. -/
theorem generalize (h : env.Closed) (t : Ty) : env.generalize t = ⟨t.varsInOrder, t⟩ := by
  simp only [TypeEnv.generalize, Scheme.mk.injEq, and_true]
  exact List.filter_eq_self.2 (fun _ _ => decide_eq_true h.not_mem_freeVars)

end TypeEnv.Closed

/-- In a closed environment, a binding adds the name at the closed scheme of some type. -/
theorem inferBinding_closed {order : ComponentOrder} {kind : BindingKind} {x : String}
    {value : Expr} {E E' : TypeEnv} {s : Subst} {m m' : Nat} (hE : E.Closed) (henv : E.Fresh m)
    (h : (inferBinding E kind x (Expr.infer order · value)).run m = (.ok (s, E'), m')) :
    ∃ T : Ty, E' = E.extend x ⟨T.varsInOrder, T⟩ := by
  cases kind with
  | plain =>
    obtain ⟨t, -, rfl⟩ := inferBinding_plain_run_iff.1 h
    exact ⟨t, by rw [hE.applySubst, hE.generalize]⟩
  | recursive =>
    obtain ⟨s₁, t, s₂, -, -, -, rfl⟩ := inferBinding_recursive_run_iff.1 h
    refine ⟨s.apply t, ?_⟩
    -- the placeholder is dropped before generalizing, and the rest is closed
    rw [TypeEnv.extend_generalizeRec_applySubst henv.sorted, (hE.remove x).applySubst,
      (hE.remove x).generalize, TypeEnv.extend_remove henv.sorted]

/-- Two environments bind the same names, in the same order, to closed schemes whose bodies are
renamings of each other by permutations of the variables. -/
def TypeEnv.Renamed (E₁ E₂ : TypeEnv) : Prop :=
  TypeEnv.Pointwise (fun sc₁ sc₂ => sc₁.Closed ∧ sc₂.Closed ∧
    ∃ ρ : Equiv.Perm Nat, sc₁.ty.rename ρ = sc₂.ty) E₁ E₂

namespace TypeEnv.Renamed

variable {E₁ E₂ : TypeEnv}

theorem closed_left (h : E₁.Renamed E₂) : E₁.Closed := fun e he => by
  obtain ⟨_, -, -, hc, -⟩ := exists_of_forall₂ h he
  exact hc

theorem closed_right (h : E₁.Renamed E₂) : E₂.Closed := fun e he => by
  obtain ⟨_, -, -, -, hc, -⟩ := exists_of_forall₂_right h he
  exact hc

theorem symm (h : E₁.Renamed E₂) : E₂.Renamed E₁ :=
  h.flip.imp (fun _ _ ⟨hx, hc₁, hc₂, ρ, hρ⟩ => ⟨hx.symm, hc₂, hc₁, ρ.symm, by
    rw [← hρ, Ty.rename_symm]⟩)

/-- Renamed environments generalize each other; this is the one direction. -/
theorem generalizes (h : E₁.Renamed E₂) : E₁.Generalizes E₂ :=
  Pointwise.imp h (fun _ _ ⟨_, hc₂, ρ, hρ⟩ => hc₂.moreGeneral_of_rename ρ hρ)

end TypeEnv.Renamed

variable {E₁ E₂ : TypeEnv} {m₁ m₂ k₁ : Nat}

/-- An expression that inference types in one of two renamed closed environments it types in the
other, in any order. -/
theorem Expr.infer_ok_of_renamed {o₁ : ComponentOrder} (o₂ : ComponentOrder) {e : Expr}
    {s₁ : Subst} {t₁ : Ty} (hR : E₁.Renamed E₂) (h₁env : E₁.Fresh m₁) (h₂env : E₂.Fresh m₂)
    (h₁ : (Expr.infer o₁ E₁ e).run m₁ = (.ok (s₁, t₁), k₁)) :
    ∃ s₂ t₂ k₂, (Expr.infer o₂ E₂ e).run m₂ = (.ok (s₂, t₂), k₂) := by
  have hsc := Expr.infer_scoped e h₁env h₁
  -- the first run types `e` in the first environment, its own reading under anything
  have ht := Expr.infer_hasType e h₁env h₁ hsc.subst.resolved.absorbs
    (hR.closed_left.envRead s₁.image)
  rw [← Subst.apply_eq_substWith, hsc.apply_eq] at ht
  obtain ⟨s₂, t₂, k₂, h₂, -⟩ := @Expr.infer_complete e o₂ _ _ _ _ _ h₂env
    (hR.closed_right.envRead Ty.var) (ht.of_generalizes hR.generalizes)
  exact ⟨s₂, t₂, k₂, h₂⟩

/-- A binding that inference types in one of two renamed closed environments it types in the
other, in any order. Each adds the name at the closed scheme of a type, and the first type is an
instance of the second. -/
theorem inferBinding_instance_of_renamed {o₁ : ComponentOrder} (o₂ : ComponentOrder)
    {kind : BindingKind} {x : String} {value : Expr} {E₁' : TypeEnv} {s₁ : Subst}
    (hR : E₁.Renamed E₂) (h₁env : E₁.Fresh m₁) (h₂env : E₂.Fresh m₂)
    (h₁ : (inferBinding E₁ kind x (Expr.infer o₁ · value)).run m₁ = (.ok (s₁, E₁'), k₁)) :
    ∃ s₂ E₂' k₂, (inferBinding E₂ kind x (Expr.infer o₂ · value)).run m₂ = (.ok (s₂, E₂'), k₂) ∧
      ∃ T₁ T₂ : Ty, E₁' = E₁.extend x ⟨T₁.varsInOrder, T₁⟩ ∧
        E₂' = E₂.extend x ⟨T₂.varsInOrder, T₂⟩ ∧ ∃ R : Nat → Ty, T₂.substWith R = T₁ := by
  obtain ⟨T₁, rfl⟩ := inferBinding_closed hR.closed_left h₁env h₁
  obtain ⟨-, hs₁, -, -⟩ := inferBinding_scoped (fun h hr => Expr.infer_scoped value h hr) h₁env h₁
  -- the rules type `x` at `T₁` in a reading of the environment the binding gives
  obtain ⟨Γ₁, hΓ₁, hlet⟩ := inferBinding_hasType (fun h hr => Expr.infer_hasType value h hr)
    h₁env h₁ hs₁.resolved.absorbs (hR.closed_left.envRead s₁.image)
  obtain ⟨sc₁, hx₁, hread₁⟩ := hΓ₁.find? (TypeEnv.find?_extend_self E₁ x _)
  have hvar₁ : HasType Γ₁ (.var x) T₁ :=
    .var hx₁ ((Scheme.closed_varsInOrder T₁).read_instance_self hread₁)
  -- so they type the `let` of it in the first environment, hence in the second
  have hlet₂ := (hlet (.var x) T₁ hvar₁).of_generalizes hR.generalizes
  obtain ⟨s₂, E₂', k₂, h₂, R, Γ₂, -, -, hΓ₂, hvar₂⟩ := inferBinding_complete
    (fun hf hr ht => @Expr.infer_complete value o₂ _ _ _ _ _ hf hr ht) h₂env
    (hR.closed_right.envRead Ty.var) hlet₂
  obtain ⟨T₂, rfl⟩ := inferBinding_closed hR.closed_right h₂env h₂
  refine ⟨s₂, _, k₂, h₂, T₁, T₂, rfl, rfl, ?_⟩
  -- the second binding's scheme, read, has `T₁` as an instance, so it does itself
  cases hvar₂ with
  | var hx₂ hi₂ =>
    obtain ⟨sc₂, hx₂', hread₂⟩ := hΓ₂.find? (TypeEnv.find?_extend_self E₂ x _)
    rw [hx₂'] at hx₂
    cases hx₂
    obtain ⟨φ, -, hφ⟩ := (Scheme.closed_varsInOrder T₂).instance_of_read hread₂ hi₂
    exact ⟨φ, hφ⟩

/-- A declaration that inference accepts in one of two renamed closed environments it accepts in
the other, in any order, and the environments after it are renamed again. -/
theorem Decl.infer_renamed {o₁ : ComponentOrder} (o₂ : ComponentOrder) {d : Decl} {E₁' : TypeEnv}
    (hR : E₁.Renamed E₂) (h₁env : E₁.Fresh m₁) (h₂env : E₂.Fresh m₂)
    (h₁ : (d.infer o₁ E₁).run m₁ = (.ok E₁', k₁)) :
    ∃ E₂' k₂, (d.infer o₂ E₂).run m₂ = (.ok E₂', k₂) ∧ E₁'.Renamed E₂' ∧ E₁'.Fresh k₁ ∧
      E₂'.Fresh k₂ := by
  cases d with
  | value kind x value =>
    simp only [Decl.infer, run_bind_eq_ok, run_pure, Prod.mk.injEq, Except.ok.injEq] at h₁
    obtain ⟨⟨s₁, F₁⟩, k, hb₁, ⟨rfl, rfl⟩⟩ := h₁
    obtain ⟨s₂, F₂, k₂, hb₂, T₁, T₂, rfl, rfl, R, hR₂⟩ :=
      inferBinding_instance_of_renamed o₂ hR h₁env h₂env hb₁
    -- the binding run back in the first order is the first run, so its type is `T₁` again
    obtain ⟨s₁', F₁', k', hb₁', T₂', T₁', hE₂, hE₁, R', hR₁⟩ :=
      inferBinding_instance_of_renamed o₁ hR.symm h₂env h₁env hb₂
    rw [hb₁] at hb₁'
    simp only [Prod.mk.injEq, Except.ok.injEq] at hb₁'
    obtain ⟨⟨-, rfl⟩, -⟩ := hb₁'
    obtain rfl : T₁ = T₁' := congrArg Scheme.ty (TypeEnv.eq_of_extend_eq hE₁)
    obtain rfl : T₂ = T₂' := congrArg Scheme.ty (TypeEnv.eq_of_extend_eq hE₂)
    -- each type is an instance of the other, so they are renamings of each other
    obtain ⟨ρ, hρ⟩ := @Ty.exists_perm_of_substWith_cancel [T₁] R' R
      (fun t ht => by rw [List.mem_singleton.1 ht, hR₁, hR₂])
    obtain ⟨-, -, hF₁, -⟩ :=
      inferBinding_scoped (fun h hr => Expr.infer_scoped value h hr) h₁env hb₁
    obtain ⟨-, -, hF₂, -⟩ :=
      inferBinding_scoped (fun h hr => Expr.infer_scoped value h hr) h₂env hb₂
    refine ⟨_, k₂, ?_, TypeEnv.Pointwise.extend hR x ⟨Scheme.closed_varsInOrder T₁,
      Scheme.closed_varsInOrder T₂, ρ, ?_⟩, hF₁, hF₂⟩
    · simpa only [Decl.infer, run_bind_eq_ok, run_pure] using ⟨_, _, hb₂, rfl⟩
    · rw [hρ T₁ List.mem_cons_self, hR₁]
  | expr e =>
    simp only [Decl.infer, run_bind_eq_ok, run_pure, Prod.mk.injEq, Except.ok.injEq] at h₁
    obtain ⟨⟨s₁, t₁⟩, k, he₁, ⟨rfl, rfl⟩⟩ := h₁
    obtain ⟨s₂, t₂, k₂, he₂⟩ := Expr.infer_ok_of_renamed o₂ hR h₁env h₂env he₁
    refine ⟨E₂, k₂, by simpa only [Decl.infer, run_bind_eq_ok, run_pure] using ⟨_, _, he₂, rfl⟩,
      hR, h₁env.mono (Expr.infer_scoped e h₁env he₁).le,
      h₂env.mono (Expr.infer_scoped e h₂env he₂).le⟩
  | typeDef name _ => exact absurd h₁ run_throw_ne_ok

/-- Declarations that inference accepts, one after the other, from one of two renamed closed
environments it accepts from the other, in any order, ending in renamed environments. -/
theorem inferDecls_renamed {o₁ : ComponentOrder} (o₂ : ComponentOrder) :
    ∀ (ds : List Decl) {E₁ E₂ E₁' : TypeEnv} {m₁ m₂ k₁ : Nat}, E₁.Renamed E₂ → E₁.Fresh m₁ →
      E₂.Fresh m₂ →
      (ds.foldlM (fun (env : TypeEnv) (d : Decl) => d.infer o₁ env) E₁).run m₁ = (.ok E₁', k₁) →
      ∃ E₂' k₂,
        (ds.foldlM (fun (env : TypeEnv) (d : Decl) => d.infer o₂ env) E₂).run m₂ = (.ok E₂', k₂) ∧
        E₁'.Renamed E₂'
  | [], _, E₂, _, _, m₂, _, hR, _, _, h => by
    simp only [List.foldlM_nil, run_pure, Prod.mk.injEq, Except.ok.injEq] at h
    obtain ⟨rfl, rfl⟩ := h
    exact ⟨E₂, m₂, by simp only [List.foldlM_nil, run_pure], hR⟩
  | d :: ds, _, _, _, _, _, _, hR, h₁env, h₂env, h => by
    simp only [List.foldlM_cons, run_bind_eq_ok] at h
    obtain ⟨F₁, n₁, hd₁, hds₁⟩ := h
    -- one declaration keeps the environments renamed, and the rest follow by induction
    obtain ⟨F₂, n₂, hd₂, hF, hF₁, hF₂⟩ := Decl.infer_renamed o₂ hR h₁env h₂env hd₁
    obtain ⟨E₂', k₂, hds₂, hR'⟩ := inferDecls_renamed o₂ ds hF hF₁ hF₂ hds₁
    exact ⟨E₂', k₂, by simpa only [List.foldlM_cons, run_bind_eq_ok] using ⟨F₂, n₂, hd₂, hds₂⟩,
      hR'⟩

/-- Renamed environments print alike: the same names, in the same order, with the same
schemes printed. -/
theorem TypeEnv.Renamed.print_eq (h : E₁.Renamed E₂) :
    E₁.entries.map (fun b => (b.1, b.2.pretty)) = E₂.entries.map (fun b => (b.1, b.2.pretty)) := by
  rw [← List.forall₂_eq_eq_eq, List.forall₂_map_left_iff, List.forall₂_map_right_iff]
  exact List.Forall₂.imp (fun a b ⟨hx, hc₁, hc₂, ρ, hρ⟩ =>
    Prod.ext hx (Scheme.pretty_rename hc₁ hc₂ ρ hρ).symm) h

/-- A program typed in two orders: both succeed or both fail, and when they succeed, they give
the same names with schemes that print alike. -/
theorem inferProgram_orders_agree (o₁ o₂ : ComponentOrder) (decls : List Decl) (n : Nat) :
    ((∃ E₁ k₁, (inferProgram o₁ decls).run n = (.ok E₁, k₁)) ↔
        ∃ E₂ k₂, (inferProgram o₂ decls).run n = (.ok E₂, k₂)) ∧
      ∀ E₁ k₁ E₂ k₂, (inferProgram o₁ decls).run n = (.ok E₁, k₁) →
        (inferProgram o₂ decls).run n = (.ok E₂, k₂) →
        E₁.entries.map (fun b => (b.1, b.2.pretty)) =
          E₂.entries.map (fun b => (b.1, b.2.pretty)) := by
  have hR : TypeEnv.empty.Renamed TypeEnv.empty := List.Forall₂.nil
  have hfresh := TypeEnv.Fresh.empty n
  refine ⟨⟨fun ⟨E₁, k₁, h₁⟩ => ?_, fun ⟨E₂, k₂, h₂⟩ => ?_⟩, fun E₁ k₁ E₂ k₂ h₁ h₂ => ?_⟩
  · obtain ⟨E₂, k₂, h₂, -⟩ := inferDecls_renamed o₂ decls hR hfresh hfresh h₁
    exact ⟨E₂, k₂, h₂⟩
  · obtain ⟨E₁, k₁, h₁, -⟩ := inferDecls_renamed o₁ decls hR hfresh hfresh h₂
    exact ⟨E₁, k₁, h₁⟩
  · obtain ⟨E₂', k₂', h₂', hR'⟩ := inferDecls_renamed o₂ decls hR hfresh hfresh h₁
    unfold inferProgram at h₂
    rw [h₂] at h₂'
    simp only [Prod.mk.injEq, Except.ok.injEq] at h₂'
    obtain ⟨rfl, -⟩ := h₂'
    exact hR'.print_eq

/-- The two component orders agree. On an expression, in an environment where the counter is
fresh, the sequential order succeeds exactly when the independent one does, and the two results
differ by a permutation of the variables, in the type and in the substitution on the free
variables of the environment. On a program, the two orders both fail or both give the same
names with schemes that print alike. -/
theorem component_orders_agree {env : TypeEnv} {n : Nat} (henv : env.Fresh n) (e : Expr) :
    ((∃ s t m, (Expr.infer .sequential env e).run n = (.ok (s, t), m)) ↔
        ∃ s t m, (Expr.infer .independent env e).run n = (.ok (s, t), m)) ∧
      (∀ s₁ t₁ m₁ s₂ t₂ m₂, (Expr.infer .sequential env e).run n = (.ok (s₁, t₁), m₁) →
        (Expr.infer .independent env e).run n = (.ok (s₂, t₂), m₂) →
        ∃ ρ : Equiv.Perm Nat, t₁.rename ρ = t₂ ∧
          ∀ x ∈ env.freeVars, (s₁.apply (.var x)).rename ρ = s₂.apply (.var x)) ∧
      ∀ (decls : List Decl) (k : Nat),
        ((∃ E₁ k₁, (inferProgram .sequential decls).run k = (.ok E₁, k₁)) ↔
            ∃ E₂ k₂, (inferProgram .independent decls).run k = (.ok E₂, k₂)) ∧
          ∀ E₁ k₁ E₂ k₂, (inferProgram .sequential decls).run k = (.ok E₁, k₁) →
            (inferProgram .independent decls).run k = (.ok E₂, k₂) →
            E₁.entries.map (fun b => (b.1, b.2.pretty)) =
              E₂.entries.map (fun b => (b.1, b.2.pretty)) := by
  refine ⟨⟨fun ⟨s₁, t₁, m₁, h₁⟩ => ?_, fun ⟨s₂, t₂, m₂, h₂⟩ => ?_⟩,
    fun _ _ _ _ _ _ h₁ h₂ => Expr.infer_results_renamed henv h₁ h₂,
    fun decls k => inferProgram_orders_agree .sequential .independent decls k⟩
  · obtain ⟨s₂, t₂, m₂, h₂, -⟩ := Expr.infer_instance_of_other_order .independent henv h₁
    exact ⟨s₂, t₂, m₂, h₂⟩
  · obtain ⟨s₁, t₁, m₁, h₁, -⟩ := Expr.infer_instance_of_other_order .sequential henv h₂
    exact ⟨s₁, t₁, m₁, h₁⟩

/-- With `f` bound to a type variable, the two orders agree on typing `(f 1, f 2)`. -/
theorem component_orders_agree_shared_variable :
    (TypeEnv.empty.extend "f" (.mono (.var 0))).Fresh 1 ∧
      ((∃ s t m, (Expr.infer .sequential (TypeEnv.empty.extend "f" (.mono (.var 0)))
          (.tuple [.app (.var "f") (.lit (.int 1)), .app (.var "f") (.lit (.int 2))])).run 1 =
            (.ok (s, t), m)) ↔
        ∃ s t m, (Expr.infer .independent (TypeEnv.empty.extend "f" (.mono (.var 0)))
          (.tuple [.app (.var "f") (.lit (.int 1)), .app (.var "f") (.lit (.int 2))])).run 1 =
            (.ok (s, t), m)) :=
  have henv := (TypeEnv.Fresh.empty 0).extend_placeholder "f"
  ⟨henv, (component_orders_agree henv _).1⟩

end HindleyMilner
