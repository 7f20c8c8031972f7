import HindleyMilner.Proofs.Subst.Idempotent
import HindleyMilner.Proofs.Unify.Complete
/-!
# Unifiers and compositions are most general

`unify a b` succeeds exactly when some replacement of the variables makes `a` and `b` equal, and
then gives the most general substitution that does (`unify_mgu`). `s₁.compose s₂` succeeds
exactly when some replacement refines both `s₁` and `s₂`, that is, is not changed by applying
either of them first, and then gives the most general common refinement (`Subst.compose_mgu`).
Both are assembled from what is known of each operation: what a successful run gives
(`unify_apply_eq`, `compose_spec`) and that a run succeeds wherever some replacement would
(`unify_complete`, `Subst.compose_complete`). A function has one result, so the result that
completeness finds is the one the run gave.

Three facts complete the picture:

* a failure is a failed occurs check or a clash of two types (`TypeError.IsUnification`), at every
  step of unifying and of composing;
* a type unifies with itself by the empty substitution (`unify_self`): the identity equates the
  two sides, so it absorbs the unifier, which then binds each variable to itself, and a resolved
  substitution binds no variable to itself;
* composing with bindings new to the first substitution, whose targets avoid its keys, adds them
  one after the other, and the result applies the first substitution and then the second
  (`Subst.compose_of_disjoint`).
-/

namespace HindleyMilner

/-- An error that unifying or composing can raise: a failed occurs check or a clash of two
types. -/
def TypeError.IsUnification (e : TypeError) : Prop :=
  e.kind = .occursCheck ∨ e.kind = .unificationFailure

/-- Absorption on variables is absorption on every type. -/
theorem absorbsSubst_iff {f : Nat → Ty} {s : Subst} :
    AbsorbsSubst f s ↔ ∀ t, (s.apply t).substWith f = t.substWith f :=
  ⟨AbsorbsSubst.apply, fun h v => h (.var v)⟩

/-- A fold in `Except` fails only with an error that some step raises. -/
theorem foldlM_error {α β ε : Type} {f : β → α → Except ε β} (P : ε → Prop)
    (hf : ∀ b a e, f b a = .error e → P e) :
    ∀ {l : List α} {b : β} {e : ε}, l.foldlM f b = .error e → P e
  | [], b, e, h => by cases h
  | a :: l, b, e, h => by
    rw [List.foldlM_cons] at h
    cases hab : f b a with
    | error e' =>
      rw [hab] at h
      cases h
      exact hf b a _ hab
    | ok b' =>
      rw [hab] at h
      exact foldlM_error P hf h

/-- Working through equations fails only by an occurs check or a clash. -/
theorem solve_error {acc : Subst} {eqs : Equations} {e : TypeError}
    (h : solve acc eqs = .error e) : e.IsUnification := by
  fun_induction solve acc eqs
  case case1 => cases h
  case case2 ih | case4 ih | case6 ih | case9 ih | case10 ih | case11 ih | case12 ih => exact ih h
  case case3 | case13 | case14 =>
    cases h
    exact Or.inr rfl
  case case5 | case8 =>
    cases h
    exact Or.inl rfl
  -- a variable on the right equated with itself was taken by the rule on the left
  case case7 v _ hnot _ => exact absurd rfl (hnot v)

theorem unify_error {a b : Ty} {e : TypeError} (h : unify a b = .error e) : e.IsUnification :=
  solve_error h

namespace Subst

variable {s s₁ s₂ : Subst} {v : Nat} {t : Ty} {e : TypeError}

theorem extend_error (h : s.extend v t = .error e) : e.IsUnification := by
  simp only [extend] at h
  split at h
  · cases h
  · split at h
    · cases h
      exact Or.inl rfl
    · cases h

theorem bind_error (h : s.bind v t = .error e) : e.IsUnification := by
  unfold bind at h
  cases hv : s.find? v with
  | none =>
    rw [hv] at h
    exact extend_error h
  | some tv =>
    rw [hv] at h
    simp only at h
    cases hu : unify (s.apply tv) (s.apply t) with
    | error e' =>
      rw [hu] at h
      cases h
      exact unify_error hu
    | ok u =>
      rw [hu] at h
      exact foldlM_error _ (fun _ _ _ he => extend_error he) h

/-- Composing fails only by an occurs check or a clash. -/
theorem compose_error (h : s₁.compose s₂ = .error e) : e.IsUnification :=
  foldlM_error _ (fun _ _ _ he => bind_error he) h

/-- A resolved substitution that the identity absorbs binds nothing: it could bind a variable only
to itself, which a resolved substitution never does. -/
theorem eq_empty_of_absorbs_var (hs : s.Resolved) (h : AbsorbsSubst Ty.var s) : s = empty := by
  obtain ⟨l⟩ := s
  cases l with
  | nil => rfl
  | cons b rest =>
    have hb : (⟨b :: rest⟩ : Subst).find? b.1 = some b.2 := by simp [SortedMap.find?]
    have hself : b.2 = .var b.1 := by
      have := h b.1
      rwa [image_of_find? hb, apply_empty.substWith_var] at this
    have hfree := hs b.1 b.2 hb b.1 (by rw [hself]; exact List.mem_singleton_self _)
    rw [hb] at hfree
    cases hfree

/-- Looking up a variable in a substitution given by its first binding and the rest. -/
theorem find?_cons (k w : Nat) (u : Ty) (bs : List (Nat × Ty)) :
    (⟨(k, u) :: bs⟩ : Subst).find? w = if k = w then some u else (⟨bs⟩ : Subst).find? w := by
  by_cases h : k = w <;> simp [SortedMap.find?, h]

/-- Applying a first binding whose variable the rest does not bind, and whose target mentions
no variable the rest binds, is replacing its variable and then applying the rest. -/
theorem apply_cons_of_fresh {k : Nat} {u : Ty} {bs : List (Nat × Ty)}
    (hk : k ∉ bs.map (·.1)) (hu : ∀ w ∈ u.vars, w ∉ bs.map (·.1)) (y : Ty) :
    Subst.apply ⟨(k, u) :: bs⟩ y = Subst.apply ⟨bs⟩ (y.substVar k u) := by
  rw [apply_eq_substWith, apply_eq_substWith, Ty.substVar, Ty.substWith_substWith]
  refine Ty.substWith_congr y (fun w _ => ?_)
  by_cases hwk : w = k
  · subst hwk
    have hself : Subst.apply ⟨bs⟩ u = u :=
      apply_eq_self_of_free (fun x hx => SortedMap.find?_eq_none_of_not_mem_keys (hu x hx))
    rw [image_of_find? (by rw [find?_cons, if_pos rfl]), if_pos rfl, ← apply_eq_substWith, hself]
  · have hne : k ≠ w := Ne.symm hwk
    simp only [image, find?_cons, if_neg hne, if_neg hwk]
    rfl

/-- Merging bindings of variables that `acc` leaves unbound, whose targets mention neither a
variable bound by `acc` nor one of the bindings' own variables, adds them one after the other:
the result applies `acc` and then the bindings. -/
theorem bindAll_of_disjoint :
    ∀ {acc : Subst} {bs : List (Nat × Ty)}, (bs.map (·.1)).Nodup →
      (∀ b ∈ bs, acc.find? b.1 = none) →
      (∀ b ∈ bs, ∀ w ∈ b.2.vars, acc.find? w = none ∧ w ∉ bs.map (·.1)) →
      ∃ r, bs.foldlM (fun acc b => acc.bind b.1 b.2) acc = .ok r ∧
        ∀ t, r.apply t = Subst.apply ⟨bs⟩ (acc.apply t)
  | acc, [], _, _, _ => ⟨acc, rfl, fun t => (apply_empty _).symm⟩
  | acc, (k, u) :: bs, hnd, hkeys, htargets => by
    obtain ⟨hkbs, hnd'⟩ := List.nodup_cons.1 hnd
    have hk : acc.find? k = none := hkeys (k, u) List.mem_cons_self
    have hu : ∀ w ∈ u.vars, acc.find? w = none ∧ w ∉ (k :: bs.map (·.1)) :=
      htargets (k, u) List.mem_cons_self
    have hku : k ∉ u.vars := fun hw => (hu k hw).2 List.mem_cons_self
    -- the binding is new and its target reads as itself through `acc`, so it is assigned
    have hread : acc.apply u = u := apply_eq_self_of_free (fun w hw => (hu w hw).1)
    have hbind : acc.bind k u = .ok (acc.assign k u) := by
      have hext : acc.extend k u = .ok (acc.assign k u) := by
        refine extend_eq_ok.2 (Or.inr ⟨?_, ?_, by rw [hread]⟩)
        · rw [hread]
          rintro rfl
          exact hku (List.mem_singleton_self k)
        · rw [hread]
          cases hocc : u.occurs k with
          | false => rfl
          | true => exact absurd ((Ty.occurs_iff k u).1 hocc) hku
      simp only [bind, hk]
      exact hext
    -- the later bindings are still new, and their targets still avoid the bound variables
    obtain ⟨r, hr, happly⟩ := @bindAll_of_disjoint (acc.assign k u) bs hnd'
      (fun b hb => by
        have hkb : k ≠ b.1 := by
          rintro rfl
          exact hkbs (List.mem_map_of_mem (f := (·.1)) hb)
        rw [find?_assign, if_neg hkb, hkeys b (List.mem_cons_of_mem _ hb)]
        rfl)
      (fun b hb w hw => by
        obtain ⟨hwacc, hwkeys⟩ := htargets b (List.mem_cons_of_mem _ hb) w hw
        have hkw : k ≠ w := fun h => hwkeys (h ▸ List.mem_cons_self)
        refine ⟨?_, fun h => hwkeys (List.mem_cons_of_mem _ h)⟩
        rw [find?_assign, if_neg hkw, hwacc]
        rfl)
    refine ⟨r, ?_, fun t => ?_⟩
    · rw [List.foldlM_cons, hbind]
      exact hr
    · rw [happly, apply_assign hk,
        apply_cons_of_fresh hkbs (fun w hw h => (hu w hw).2 (List.mem_cons_of_mem _ h))]

/-- Composing with a substitution whose variables `s₁` does not bind, and whose targets avoid the
keys of `s₁`, succeeds, and applies `s₁` and then `s₂`. -/
theorem compose_of_disjoint (h₂ : s₂.Canonical) (hkeys : ∀ k ∈ s₂.keys, k ∉ s₁.keys)
    (htargets : ∀ k t, (k, t) ∈ s₂.entries → ∀ w ∈ t.vars, w ∉ s₁.keys) :
    ∃ r, s₁.compose s₂ = .ok r ∧ ∀ t, r.apply t = s₂.apply (s₁.apply t) :=
  bindAll_of_disjoint h₂.sorted.nodup_keys
    (fun b hb => SortedMap.find?_eq_none_of_not_mem_keys (hkeys b.1 (List.mem_map_of_mem hb)))
    (fun b hb w hw => ⟨SortedMap.find?_eq_none_of_not_mem_keys (htargets b.1 b.2 hb w hw),
      h₂.not_mem_keys hb hw⟩)

/-- Composition finds a most general common refinement. For idempotent `s₁` and `s₂`,
`s₁.compose s₂` succeeds exactly when some replacement of the variables is unchanged by applying
`s₁` or `s₂` first. Its result is such a replacement itself, is idempotent, and every such
replacement is unchanged by applying it first. It fails only by an occurs check or a clash, and
only where no such replacement exists. When `s₂` binds only variables new to `s₁` and its
targets avoid the keys of `s₁`, the composition succeeds and applies `s₁` and then `s₂`. -/
theorem compose_mgu (h₁ : s₁.Canonical) (h₂ : s₂.Canonical) :
    ((∃ r, s₁.compose s₂ = .ok r) ↔
        ∃ u : Nat → Ty, ∀ t, (s₁.apply t).substWith u = t.substWith u ∧
          (s₂.apply t).substWith u = t.substWith u) ∧
      (∀ r, s₁.compose s₂ = .ok r →
        (∀ t, r.apply (s₁.apply t) = r.apply t ∧ r.apply (s₂.apply t) = r.apply t) ∧
          r.Idempotent ∧
          ∀ u : Nat → Ty, (∀ t, (s₁.apply t).substWith u = t.substWith u ∧
              (s₂.apply t).substWith u = t.substWith u) →
            ∀ t, (r.apply t).substWith u = t.substWith u) ∧
      (∀ e, s₁.compose s₂ = .error e → e.IsUnification ∧
        ¬ ∃ u : Nat → Ty, ∀ t, (s₁.apply t).substWith u = t.substWith u ∧
          (s₂.apply t).substWith u = t.substWith u) ∧
      ((∀ k ∈ s₂.keys, k ∉ s₁.keys) → (∀ k t, (k, t) ∈ s₂.entries → ∀ w ∈ t.vars, w ∉ s₁.keys) →
        ∃ r, s₁.compose s₂ = .ok r ∧ ∀ t, r.apply t = s₂.apply (s₁.apply t)) := by
  -- the result of composing refines both
  have hsound : ∀ r, s₁.compose s₂ = .ok r → ∀ t, (s₁.apply t).substWith r.image =
      t.substWith r.image ∧ (s₂.apply t).substWith r.image = t.substWith r.image := by
    intro r hr t
    obtain ⟨-, habs₁, habs₂, -⟩ := compose_spec h₁.resolved hr
    exact ⟨habs₁.apply t, habs₂.apply t⟩
  -- a common refinement makes composing succeed, and refines the result
  have hcomplete : ∀ u : Nat → Ty, (∀ t, (s₁.apply t).substWith u = t.substWith u ∧
      (s₂.apply t).substWith u = t.substWith u) →
      ∃ r, s₁.compose s₂ = .ok r ∧ AbsorbsSubst u r := fun u hu =>
    compose_complete h₁.resolved (absorbsSubst_iff.2 fun t => (hu t).1) h₂.sorted
      (absorbsSubst_iff.2 fun t => (hu t).2)
  refine ⟨⟨fun ⟨r, hr⟩ => ⟨r.image, hsound r hr⟩, fun ⟨u, hu⟩ => ?_⟩, fun r hr => ⟨hsound r hr,
    Canonical.toIdempotent ⟨Sorted.compose h₁.sorted hr, h₁.resolved.compose hr⟩, fun u hu => ?_⟩,
    fun e he => ⟨compose_error he, fun ⟨u, hu⟩ => ?_⟩, compose_of_disjoint h₂⟩
  · obtain ⟨r, hr, -⟩ := hcomplete u hu
    exact ⟨r, hr⟩
  · -- the composition that completeness finds is the one the run gave
    obtain ⟨r', hr', habs⟩ := hcomplete u hu
    rw [hr] at hr'
    cases hr'
    exact habs.apply
  · obtain ⟨r, hr, -⟩ := hcomplete u hu
    rw [hr] at he
    cases he

/-- `0 ↦ 1 list` and `0 ↦ int list` bind the same variable to different targets: they compose
exactly when some replacement refines both. -/
theorem compose_mgu_overlapping_keys :
    Canonical ⟨[(0, .list (.var 1))]⟩ ∧ Canonical ⟨[(0, .list .int)]⟩ ∧
      ((∃ r, compose ⟨[(0, .list (.var 1))]⟩ ⟨[(0, .list .int)]⟩ = .ok r) ↔
        ∃ u : Nat → Ty, ∀ t, (Subst.apply ⟨[(0, .list (.var 1))]⟩ t).substWith u =
          t.substWith u ∧ (Subst.apply ⟨[(0, .list .int)]⟩ t).substWith u = t.substWith u) :=
  have h₁ : Canonical ⟨[(0, .list (.var 1))]⟩ :=
    Reachable.canonical (.singleton (v := 0) (t := .list (.var 1)) rfl)
  have h₂ : Canonical ⟨[(0, .list .int)]⟩ :=
    Reachable.canonical (.singleton (v := 0) (t := .list .int) rfl)
  ⟨h₁, h₂, (compose_mgu h₁ h₂).1⟩

end Subst

/-- A type unifies with itself by the empty substitution. -/
theorem unify_self (t : Ty) : unify t t = .ok Subst.empty := by
  obtain ⟨s, hs, habs⟩ := unify_complete (S := Ty.var) (a := t) rfl
  rw [hs, Subst.eq_empty_of_absorbs_var (resolved_unify hs) habs]

/-- Unification finds a most general unifier, with an occurs check. `unify a b` succeeds exactly
when some replacement of the variables makes `a` and `b` equal. Its result equates them, is
idempotent, mentions only variables of `a` and `b`, and every replacement that equates them is
unchanged by applying it first. It fails only by an occurs check or a clash, and only where
nothing equates the two. A type unifies with itself by the empty substitution. -/
theorem unify_mgu (a b : Ty) :
    ((∃ s, unify a b = .ok s) ↔ ∃ u : Nat → Ty, a.substWith u = b.substWith u) ∧
      (∀ s, unify a b = .ok s →
        s.apply a = s.apply b ∧ s.Idempotent ∧ (∀ w, s.Mentions w → w ∈ a.vars ∨ w ∈ b.vars) ∧
          ∀ u : Nat → Ty, a.substWith u = b.substWith u →
            ∀ x, (s.apply (.var x)).substWith u = u x) ∧
      (∀ e, unify a b = .error e →
        e.IsUnification ∧ ¬ ∃ u : Nat → Ty, a.substWith u = b.substWith u) ∧
      ∀ t, unify t t = .ok Subst.empty := by
  refine ⟨⟨fun ⟨s, hs⟩ => ⟨s.image, unify_apply_eq hs⟩, fun ⟨u, hu⟩ => ?_⟩,
    fun s hs => ⟨unify_apply_eq hs,
      Subst.Canonical.toIdempotent ⟨sorted_unify hs, resolved_unify hs⟩,
      fun w hw => mentions_unify hs hw, fun u hu x => ?_⟩,
    fun e he => ⟨unify_error he, fun ⟨u, hu⟩ => ?_⟩, unify_self⟩
  · obtain ⟨s, hs, -⟩ := unify_complete hu
    exact ⟨s, hs⟩
  · -- the unifier that completeness finds is the one the run gave
    obtain ⟨s', hs', habs⟩ := unify_complete hu
    rw [hs] at hs'
    cases hs'
    exact habs x
  · obtain ⟨s, hs, -⟩ := unify_complete hu
    rw [hs] at he
    cases he

end HindleyMilner
