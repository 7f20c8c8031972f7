import HindleyMilner.Proofs.Subst.Merge
/-!
# Unification and merging are most general

Where some replacement `S` makes two types equal, `unify` succeeds and its unifier is most
general: `S` absorbs it, that is, `S` is the unifier followed by `S` itself (`unify_complete`).
The same holds one level up. Merging into a substitution that `S` absorbs a substitution that
`S` absorbs succeeds, and `S` absorbs the result (`Subst.compose_complete`); so does merging a
unifier of two types that `S` makes equal (`Subst.mergeUnifier_complete`).

Unification fails only where no replacement could succeed: two different constructors, tuples
of different lengths, and a variable against a larger type that contains it, whose image every
replacement makes larger than the variable's (`Ty.substWith_ne_of_mem_vars`).
-/

namespace HindleyMilner

namespace Ty

/-- The image of a variable is no larger than the image of a type it occurs in. -/
theorem size_le_substWith (f : Nat → Ty) (v : Nat) :
    ∀ t : Ty, v ∈ t.vars → (f v).size ≤ (t.substWith f).size
  | .var w, h => by
    simp only [vars_var, List.mem_singleton] at h
    subst h
    exact Nat.le_refl _
  | .prim _, h => by simp at h
  | .arrow a b, h => by
    simp only [vars_arrow, List.mem_append] at h
    simp only [substWith, size]
    rcases h with h | h
    · have := size_le_substWith f v a h
      omega
    · have := size_le_substWith f v b h
      omega
  | .tuple items, h => by
    simp only [vars_tuple] at h
    simp only [substWith, size]
    have := sizeList_le_substWithList f v items h
    omega
  | .list t, h => by
    simp only [vars_list] at h
    simp only [substWith, size]
    have := size_le_substWith f v t h
    omega
where
  /-- The list form of `size_le_substWith`. -/
  sizeList_le_substWithList (f : Nat → Ty) (v : Nat) :
      ∀ ts : List Ty, v ∈ varsList ts → (f v).size ≤ sizeList (substWithList f ts)
    | [], h => by simp [varsList] at h
    | t :: ts, h => by
      simp only [varsList_cons, List.mem_append] at h
      simp only [substWithList, sizeList]
      rcases h with h | h
      · have := size_le_substWith f v t h
        omega
      · have := sizeList_le_substWithList f v ts h
        omega

/-- A type that contains `v` and is not `v` itself has an image larger than that of `v`, so no
replacement equates the two: the occurs check rejects nothing that has a unifier. -/
theorem substWith_ne_of_mem_vars (f : Nat → Ty) {v : Nat} {t : Ty} (hv : v ∈ t.vars)
    (hne : t ≠ .var v) : t.substWith f ≠ f v := by
  intro h
  have hlt : (f v).size < (t.substWith f).size := by
    cases t with
    | var w =>
      simp only [vars_var, List.mem_singleton] at hv
      subst hv
      exact absurd rfl hne
    | prim _ => simp at hv
    | arrow a b =>
      simp only [vars_arrow, List.mem_append] at hv
      simp only [substWith, size]
      rcases hv with hv | hv
      · have := size_le_substWith f v a hv
        omega
      · have := size_le_substWith f v b hv
        omega
    | tuple items =>
      simp only [vars_tuple] at hv
      simp only [substWith, size]
      have := size_le_substWith.sizeList_le_substWithList f v items hv
      omega
    | list t =>
      simp only [vars_list] at hv
      simp only [substWith, size]
      have := size_le_substWith f v t hv
      omega
  rw [h] at hlt
  exact Nat.lt_irrefl _ hlt

end Ty

/-- Two lists whose images under `f` are equal have equal images at each pair of the zip. -/
theorem zip_of_map_eq {f : Ty → Ty} :
    ∀ {xs ys : List Ty}, xs.map f = ys.map f → ∀ e ∈ xs.zip ys, f e.1 = f e.2
  | [], _, _, e, he => by simp at he
  | _ :: _, [], _, e, he => by simp at he
  | x :: xs, y :: ys, h, e, he => by
    simp only [List.map_cons, List.cons.injEq] at h
    rcases List.mem_cons.1 he with rfl | he
    · exact h.1
    · exact zip_of_map_eq h.2 e he

variable {S : Nat → Ty} {s o r acc : Subst} {v : Nat} {t a b : Ty}

/-- `S` absorbs `acc` with `v ↦ t` assigned when it absorbs `acc`, sends `v` where it sends `t`,
and `acc` does not bind `v`. -/
theorem AbsorbsSubst.assign (hS : AbsorbsSubst S acc) (hv : acc.find? v = none)
    (hvt : S v = t.substWith S) : AbsorbsSubst S (acc.assign v t) := by
  intro w
  rw [Subst.image_assign hv]
  by_cases hwv : w = v
  · subst hwv
    rw [if_pos rfl, hvt]
  · rw [if_neg hwv, substWith_substVar_of hvt.symm, hS w]

/-- A function absorbing a sorted substitution sends each bound variable where it sends its
target. -/
theorem AbsorbsSubst.entry (hS : AbsorbsSubst S s) (hs : SortedMap.Sorted s) {e : Nat × Ty}
    (he : e ∈ s.entries) : S e.1 = e.2.substWith S := by
  rw [← hS e.1, Subst.image_of_find? (hs.find?_eq_some_iff.2 he)]

theorem absorbsSubst_empty (S : Nat → Ty) : AbsorbsSubst S Subst.empty := fun _ => rfl

/-- Working through equations that `S` solves, from a substitution that `S` absorbs and that
binds no variable of the equations, succeeds, and `S` absorbs the result. -/
theorem solve_complete {eqs : Equations} (hu : Equations.Unbound acc eqs)
    (hS : AbsorbsSubst S acc) (heq : ∀ e ∈ eqs, e.1.substWith S = e.2.substWith S) :
    ∃ r, solve acc eqs = .ok r ∧ AbsorbsSubst S r := by
  fun_induction solve acc eqs
  case case1 => exact ⟨_, rfl, hS⟩
  case case2 ih =>
    exact ih (hu.of_subset (Equations.vars_subset_cons _ _)) hS
      (fun e he => heq e (List.mem_cons_of_mem _ he))
  case case3 p q rest hne =>
    -- two base types have a unifier only when they are one
    have h := heq _ List.mem_cons_self
    simp only [Ty.substWith, Ty.prim.injEq] at h
    exact absurd h hne
  case case4 ih =>
    exact ih (hu.of_subset (Equations.vars_subset_cons _ _)) hS
      (fun e he => heq e (List.mem_cons_of_mem _ he))
  case case5 v t rest hne hocc =>
    exact absurd (heq _ List.mem_cons_self).symm
      (Ty.substWith_ne_of_mem_vars S ((Ty.occurs_iff v t).1 hocc) hne)
  case case6 v t rest hne hocc ih =>
    -- `v` is bound to `t`: `S` sends `v` where it sends `t`, so it solves the rest with `v`
    -- replaced
    have hab : Ty.var v = .var v ∧ t = t ∨ Ty.var v = t ∧ t = .var v := Or.inl ⟨rfl, rfl⟩
    have hvt : S v = t.substWith S := heq _ List.mem_cons_self
    refine ih (hu.bind hab (by simpa using hocc))
      (hS.assign (hu v (Equations.mem_vars_of_bind hab).1) hvt) (fun e he => ?_)
    obtain ⟨e', he', rfl⟩ := List.mem_map.1 he
    simpa only [substWith_substVar_of hvt.symm] using heq e' (List.mem_cons_of_mem _ he')
  case case7 v rest hnot ih => exact absurd rfl (hnot v)
  case case8 t v rest hnot hne hocc =>
    exact absurd (heq _ List.mem_cons_self)
      (Ty.substWith_ne_of_mem_vars S ((Ty.occurs_iff v t).1 hocc) hne)
  case case9 t v rest hnot hne hocc ih =>
    have hab : t = .var v ∧ Ty.var v = t ∨ t = t ∧ Ty.var v = .var v := Or.inr ⟨rfl, rfl⟩
    have hvt : S v = t.substWith S := (heq _ List.mem_cons_self).symm
    refine ih (hu.bind hab (by simpa using hocc))
      (hS.assign (hu v (Equations.mem_vars_of_bind hab).1) hvt) (fun e he => ?_)
    obtain ⟨e', he', rfl⟩ := List.mem_map.1 he
    simpa only [substWith_substVar_of hvt.symm] using heq e' (List.mem_cons_of_mem _ he')
  case case10 a₁ b₁ a₂ b₂ rest ih =>
    have h := heq _ List.mem_cons_self
    simp only [Ty.substWith, Ty.arrow.injEq] at h
    refine ih (hu.of_subset (Equations.vars_subset_arrow _ _ _ _ _)) hS (fun e he => ?_)
    rcases List.mem_cons.1 he with rfl | he
    · exact h.1
    rcases List.mem_cons.1 he with rfl | he
    · exact h.2
    exact heq e (List.mem_cons_of_mem _ he)
  case case11 a b rest ih =>
    have h := heq _ List.mem_cons_self
    simp only [Ty.substWith, Ty.list.injEq] at h
    refine ih (hu.of_subset (Equations.vars_subset_list _ _ _)) hS (fun e he => ?_)
    rcases List.mem_cons.1 he with rfl | he
    · exact h
    exact heq e (List.mem_cons_of_mem _ he)
  case case12 xs ys rest hlen ih =>
    have h := heq _ List.mem_cons_self
    simp only [Ty.substWith, Ty.tuple.injEq, Ty.substWithList_eq_map] at h
    refine ih (hu.of_subset (Equations.vars_subset_tuple _ _ _)) hS (fun e he => ?_)
    rcases List.mem_append.1 he with he | he
    · exact zip_of_map_eq h e he
    · exact heq e (List.mem_cons_of_mem _ he)
  case case13 xs ys rest hlen =>
    -- a replacement keeps the length of a tuple
    have h := heq _ List.mem_cons_self
    simp only [Ty.substWith, Ty.tuple.injEq, Ty.substWithList_eq_map] at h
    have hl := congrArg List.length h
    simp only [List.length_map] at hl
    exact absurd hl hlen
  case case14 a b rest hpp hva hvb har hli htu =>
    -- the two sides have different constructors, neither of them a variable
    have h := heq _ List.mem_cons_self
    exfalso
    cases a <;> cases b <;> first
      | exact hva _ rfl | exact hvb _ rfl | exact hpp _ _ rfl rfl
      | exact har _ _ _ _ rfl rfl | exact hli _ _ rfl rfl | exact htu _ _ rfl rfl | cases h

/-- Two types that `S` makes equal have a unifier, and `S` absorbs it. -/
theorem unify_complete (h : a.substWith S = b.substWith S) :
    ∃ u, unify a b = .ok u ∧ AbsorbsSubst S u :=
  solve_complete (unbound_unify a b) (absorbsSubst_empty S) (by simpa using h)

namespace Subst

/-- Adding a binding of an unbound variable that `S` follows succeeds, and `S` absorbs the
result. -/
theorem extend_complete (hS : AbsorbsSubst S s) (hv : s.find? v = none)
    (hvt : S v = t.substWith S) : ∃ r, s.extend v t = .ok r ∧ AbsorbsSubst S r := by
  have hvt' : S v = (s.apply t).substWith S := by rw [hS.apply]; exact hvt
  by_cases halias : s.apply t = .var v
  · exact ⟨s, extend_eq_ok.2 (Or.inl ⟨halias, rfl⟩), hS⟩
  · -- the target read through `s` cannot contain `v`: its image would be larger than `S v`
    have hocc : (s.apply t).occurs v = false := by
      cases hocc : (s.apply t).occurs v with
      | false => rfl
      | true =>
        exact absurd hvt'.symm
          (Ty.substWith_ne_of_mem_vars S ((Ty.occurs_iff v _).1 hocc) halias)
    exact ⟨_, extend_eq_ok.2 (Or.inr ⟨halias, hocc, rfl⟩), hS.assign hv hvt'⟩

/-- Adding bindings of distinct unbound variables that `S` follows, one after another, succeeds,
and `S` absorbs the result. -/
theorem extendAll_complete :
    ∀ {s : Subst} {bs : List (Nat × Ty)}, s.Resolved → AbsorbsSubst S s →
      (bs.map (·.1)).Nodup → (∀ b ∈ bs, s.find? b.1 = none) → (∀ b ∈ bs, S b.1 = b.2.substWith S) →
      ∃ r, bs.foldlM (fun acc b => acc.extend b.1 b.2) s = .ok r ∧ AbsorbsSubst S r
  | s, [], _, hS, _, _, _ => ⟨s, rfl, hS⟩
  | s, b :: bs, hs, hS, hnd, hfree, hbs => by
    obtain ⟨s', he, hS'⟩ :=
      extend_complete hS (hfree b List.mem_cons_self) (hbs b List.mem_cons_self)
    obtain ⟨hs', -, -, hkeep, -⟩ := extend_spec hs (hfree b List.mem_cons_self) he
    -- the later variables are still unbound after `b` is added
    have hfree' : ∀ c ∈ bs, s'.find? c.1 = none := fun c hc =>
      hkeep c.1 (hfree c (List.mem_cons_of_mem _ hc))
        (fun hcb => (List.nodup_cons.1 hnd).1 (List.mem_map.2 ⟨c, hc, hcb⟩))
    obtain ⟨r, hr, hSr⟩ := extendAll_complete hs' hS' (List.nodup_cons.1 hnd).2 hfree'
      (fun c hc => hbs c (List.mem_cons_of_mem _ hc))
    refine ⟨r, ?_, hSr⟩
    rw [List.foldlM_cons, he]
    exact hr

/-- Merging a binding that `S` follows into a resolved substitution that `S` absorbs succeeds,
and `S` absorbs the result. -/
theorem bind_complete (hs : s.Resolved) (hS : AbsorbsSubst S s) (hvt : S v = t.substWith S) :
    ∃ r, s.bind v t = .ok r ∧ AbsorbsSubst S r := by
  unfold Subst.bind
  cases hv : s.find? v with
  | none => exact extend_complete hS hv hvt
  | some e =>
    simp only
    -- `S` makes the two targets of `v` equal, so they have a unifier that `S` absorbs
    have heq : (s.apply e).substWith S = (s.apply t).substWith S := by
      rw [hS.apply, hS.apply, ← hvt, ← hS v, image_of_find? hv]
    obtain ⟨u, hu, hSu⟩ := unify_complete heq
    rw [hu]
    exact extendAll_complete hs hS (sorted_unify hu).nodup_keys (hs.find?_unify_eq_none hu)
      (fun b hb => hSu.entry (sorted_unify hu) hb)

/-- Merging bindings that `S` follows into a resolved substitution that `S` absorbs succeeds,
and `S` absorbs the result. -/
theorem bindAll_complete :
    ∀ {s : Subst} {bs : List (Nat × Ty)}, s.Resolved → AbsorbsSubst S s →
      (∀ b ∈ bs, S b.1 = b.2.substWith S) →
      ∃ r, bs.foldlM (fun acc b => acc.bind b.1 b.2) s = .ok r ∧ AbsorbsSubst S r
  | s, [], _, hS, _ => ⟨s, rfl, hS⟩
  | s, b :: bs, hs, hS, hbs => by
    obtain ⟨s', hb, hS'⟩ := bind_complete hs hS (hbs b List.mem_cons_self)
    obtain ⟨r, hr, hSr⟩ := bindAll_complete (bind_spec hs hb).1 hS'
      (fun c hc => hbs c (List.mem_cons_of_mem _ hc))
    refine ⟨r, ?_, hSr⟩
    rw [List.foldlM_cons, hb]
    exact hr

/-- Composing two substitutions that `S` absorbs, the first resolved and the second sorted,
succeeds, and `S` absorbs the result. -/
theorem compose_complete (hs : s.Resolved) (hSs : AbsorbsSubst S s)
    (ho : SortedMap.Sorted o) (hSo : AbsorbsSubst S o) :
    ∃ r, s.compose o = .ok r ∧ AbsorbsSubst S r :=
  bindAll_complete hs hSs (fun _ hb => hSo.entry ho hb)

/-- Merging into a resolved substitution that `S` absorbs the unifier of two types that `S` makes
equal succeeds, and `S` absorbs the result. -/
theorem mergeUnifier_complete (hs : s.Resolved) (hS : AbsorbsSubst S s)
    (hab : a.substWith S = b.substWith S) :
    ∃ r, s.mergeUnifier a b = .ok r ∧ AbsorbsSubst S r := by
  obtain ⟨u, hu, hSu⟩ := unify_complete hab
  obtain ⟨r, hr, hSr⟩ := compose_complete hs hS (sorted_unify hu) hSu
  refine ⟨r, ?_, hSr⟩
  simp only [mergeUnifier, hu]
  exact hr

end Subst

end HindleyMilner
