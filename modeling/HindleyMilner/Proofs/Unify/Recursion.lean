import HindleyMilner.Proofs.Subst.Chain
import HindleyMilner.Proofs.Equivariance.Unify
/-!
# Unification as a recursion on the two types

`unify` works through a list of equations, but it computes what a recursion on the shapes of the
two types computes. Two arrows unify their domains, then their ranges read through the domains'
unifier, and compose the two unifiers (`unify_arrow`). Two tuples of one length fold over their
components from the empty substitution, each pair read through the substitution so far and its
unifier composed in (`unify_tuple`). Two lists unify their elements (`unify_list`); a variable is
bound by a singleton (`unify_var_left`, `unify_var_right`); two types whose outer constructors
differ clash (`unify_clash`).

The two recursive rules come from two facts about the work list, for a start that binds no
variable of the equations:

* solving a concatenation solves the first part, then the second part read through the result
  (`solve_append`);
* solving from a canonical start is solving from the empty substitution and composing the start
  with the result (`solve_eq_bind_compose`).

Together they turn the work list into a fold over its equations (`solve_eq_foldlM`). A canonical
substitution is fixed by how it reads each variable (`Subst.eq_of_apply_var_eq`), which is how
results that apply alike are shown equal.
-/

namespace HindleyMilner

namespace Subst

variable {s s₁ s₂ acc base ab u : Subst} {v : Nat} {t : Ty}

/-- Sorted substitutions with the same look-ups are equal. -/
theorem eq_of_find?_eq (h₁ : SortedMap.Sorted s₁) (h₂ : SortedMap.Sorted s₂)
    (h : ∀ v, s₁.find? v = s₂.find? v) : s₁ = s₂ := by
  have : Std.Irrefl (fun a b : Nat × Ty => a.1 < b.1) := ⟨fun a => Nat.lt_irrefl a.1⟩
  have : Std.Antisymm (fun a b : Nat × Ty => a.1 < b.1) :=
    ⟨fun _ _ hab hba => absurd (Nat.lt_trans hab hba) (Nat.lt_irrefl _)⟩
  obtain ⟨l₁⟩ := s₁
  obtain ⟨l₂⟩ := s₂
  rw [SortedMap.mk.injEq]
  refine List.Pairwise.eq_of_mem_iff h₁ h₂ (fun e => ?_)
  obtain ⟨k, a⟩ := e
  rw [← h₁.find?_eq_some_iff, ← h₂.find?_eq_some_iff, h]

/-- Canonical substitutions that read every variable alike are equal. -/
theorem eq_of_apply_var_eq (h₁ : s₁.Canonical) (h₂ : s₂.Canonical)
    (h : ∀ v, s₁.apply (.var v) = s₂.apply (.var v)) : s₁ = s₂ := by
  refine eq_of_find?_eq h₁.sorted h₂.sorted (fun v => ?_)
  cases hv : s₁.find? v with
  | none =>
    rw [eq_comm, h₂.resolved.find?_eq_none_iff, ← h v]
    exact h₁.resolved.find?_eq_none_iff.1 hv
  | some t =>
    -- `v` moves under `s₁`, so it moves under `s₂` too, to the same target
    have hread₁ : s₁.apply (.var v) = t := by rw [apply_var, hv, Option.getD_some]
    have hread : s₂.apply (.var v) = t := by rw [← h v, hread₁]
    cases hv₂ : s₂.find? v with
    | none =>
      rw [h₂.resolved.find?_eq_none_iff.1 hv₂] at hread
      rw [h₁.resolved.find?_eq_none_iff.2 (hread₁.trans hread.symm)] at hv
      cases hv
    | some t₂ =>
      rw [apply_var, hv₂, Option.getD_some] at hread
      rw [hread]

/-- Composing the empty substitution with a canonical one gives that one. -/
theorem empty_compose (hu : u.Canonical) : empty.compose u = .ok u := by
  obtain ⟨r, hr, happly⟩ :
      ∃ r, empty.compose u = .ok r ∧ ∀ t, r.apply t = u.apply (empty.apply t) :=
    compose_of_disjoint hu
    (fun k _ hk => by simp [SortedMap.keys, empty] at hk)
    (fun _ _ _ _ _ hw => by simp [SortedMap.keys, empty] at hw)
  rw [hr]
  congr 1
  refine eq_of_apply_var_eq ⟨Sorted.compose sorted_empty hr, resolved_empty.compose hr⟩ hu
    (fun v => ?_)
  rw [happly, apply_empty]

/-- Composing with bindings none of whose variables the start binds: the result is canonical,
and reads a type through the start and then through the bindings. -/
theorem compose_of_unbound (hacc : acc.Canonical) (hbase : base.Canonical)
    (hm : ∀ w, base.Mentions w → acc.find? w = none) :
    ∃ r, acc.compose base = .ok r ∧ r.Canonical ∧ ∀ t, r.apply t = base.apply (acc.apply t) := by
  have hkey : ∀ w, base.Mentions w → w ∉ acc.keys := fun w hw hk => by
    obtain ⟨a, ha⟩ := SortedMap.find?_isSome_of_mem_keys hk
    rw [hm w hw] at ha
    cases ha
  obtain ⟨r, hr, happly⟩ := compose_of_disjoint hbase
    (fun k hk => by
      obtain ⟨e, he, rfl⟩ := List.mem_map.1 hk
      exact hkey e.1 ⟨e.1, e.2, he, Or.inl rfl⟩)
    (fun k t hkt w hw => hkey w ⟨k, t, hkt, Or.inr hw⟩)
  exact ⟨r, hr, ⟨Sorted.compose hacc.sorted hr, hacc.resolved.compose hr⟩, happly⟩

/-- Merging a binding of an unbound variable adds it by `extend`. -/
theorem bind_of_find?_eq_none (hv : s.find? v = none) : s.bind v t = s.extend v t := by
  simp only [bind, hv]

/-- Merging a binding of a bound variable unifies the two targets read through `s` and adds the
unifier's bindings by `extend`. -/
theorem bind_of_find?_eq_some {e : Ty} (hv : s.find? v = some e) :
    s.bind v t = (unify (s.apply e) (s.apply t)).bind
      fun u => u.entries.foldlM (fun acc b => acc.extend b.1 b.2) s := by
  simp only [bind, hv]
  rfl

/-- Extending by a binding of `v` leaves unbound every other variable that was unbound. -/
theorem find?_extend_eq_none {r : Subst} {w : Nat} (he : s.extend v t = .ok r)
    (hw : s.find? w = none) (hvw : v ≠ w) : r.find? w = none := by
  rcases extend_eq_ok.1 he with ⟨-, rfl⟩ | ⟨-, -, rfl⟩
  · exact hw
  · rw [find?_assign, if_neg hvw, hw]
    rfl

/-- Merging bindings of distinct variables that `s` leaves unbound never meets a bound variable:
each binding is added by `extend`. -/
theorem bindAll_eq_extendAll :
    ∀ {s : Subst} {bs : List (Nat × Ty)}, (bs.map (·.1)).Nodup → (∀ b ∈ bs, s.find? b.1 = none) →
      bs.foldlM (fun acc b => acc.bind b.1 b.2) s = bs.foldlM (fun acc b => acc.extend b.1 b.2) s
  | _, [], _, _ => rfl
  | s, b :: bs, hnd, hfree => by
    rw [List.foldlM_cons, List.foldlM_cons, bind_of_find?_eq_none (hfree b List.mem_cons_self)]
    cases he : s.extend b.1 b.2 with
    | error e => rfl
    | ok s' =>
      -- the later variables are still unbound after `b` is added
      refine bindAll_eq_extendAll (List.nodup_cons.1 hnd).2 (fun c hc => ?_)
      exact find?_extend_eq_none he (hfree c (List.mem_cons_of_mem _ hc))
        (fun h => (List.nodup_cons.1 hnd).1 (List.mem_map.2 ⟨c, hc, h.symm⟩))

/-- A result that reads every type through `acc` and then `base` leaves unbound what both leave
unbound. -/
theorem find?_eq_none_of_apply (hab : ab.Resolved)
    (happly : ∀ t, ab.apply t = base.apply (acc.apply t)) (h₁ : acc.find? v = none)
    (h₂ : base.find? v = none) : ab.find? v = none := by
  rw [hab.find?_eq_none_iff, happly, apply_var acc, h₁, Option.getD_none, apply_var, h₂,
    Option.getD_none]

end Subst

namespace Equations

/-- Both sides of every equation read through `s`. -/
def apply (eqs : Equations) (s : Subst) : Equations := eqs.map (Prod.map s.apply s.apply)

@[simp] theorem apply_nil (s : Subst) : apply [] s = [] := rfl

@[simp] theorem apply_cons (a b : Ty) (rest : Equations) (s : Subst) :
    apply ((a, b) :: rest) s = (s.apply a, s.apply b) :: apply rest s := rfl

@[simp] theorem length_apply (eqs : Equations) (s : Subst) : (eqs.apply s).length = eqs.length :=
  List.length_map _

theorem substVar_append (e₁ e₂ : Equations) (v : Nat) (t : Ty) :
    (e₁ ++ e₂).substVar v t = e₁.substVar v t ++ e₂.substVar v t :=
  List.map_append

theorem Unbound.left {s : Subst} {e₁ e₂ : Equations} (h : Unbound s (e₁ ++ e₂)) : Unbound s e₁ :=
  h.of_subset (fun w hw => by rw [vars_append]; exact List.mem_append_left _ hw)

/-- Equations none of whose variables `s` binds read as themselves. -/
theorem apply_of_unbound {s : Subst} : ∀ {eqs : Equations}, Unbound s eqs → eqs.apply s = eqs
  | [], _ => rfl
  | (a, b) :: rest, h => by
    rw [apply_cons, Subst.apply_eq_self_of_free (fun w hw => h w (by simp [hw])),
      Subst.apply_eq_self_of_free (fun w hw => h w (by simp [hw])),
      apply_of_unbound (h.of_subset (vars_subset_cons _ _))]

/-- A substitution that reads `v` as it reads `t` does not see `v` replaced by `t`. -/
theorem apply_substVar_of {r : Subst} {v : Nat} {t : Ty} (h : t.substWith r.image = r.image v)
    (eqs : Equations) : (eqs.substVar v t).apply r = eqs.apply r := by
  simp only [apply, substVar, List.map_map]
  refine List.map_congr_left (fun e _ => ?_)
  simp only [Function.comp, Prod.map, Subst.apply_eq_substWith, substWith_substVar_of h]

end Equations

open Equations

/-- The work list by its steps. Each step looks at the first equation only, and does the same
whatever the substitution so far: it replaces the equation by equations between its parts
(possibly none), or fails, or binds a variable of it to the other side. -/
theorem solve_induction {motive : Subst → Equations → Prop}
    (nil : ∀ acc, motive acc [])
    (split : ∀ acc a b (rest hd : Equations),
      (∀ acc' (rest' : Equations), solve acc' ((a, b) :: rest') = solve acc' (hd ++ rest')) →
      (∀ w ∈ hd.vars, w ∈ a.vars ++ b.vars) → motive acc (hd ++ rest) →
      motive acc ((a, b) :: rest))
    (fail : ∀ acc a b (rest : Equations) (e : TypeError),
      (∀ acc' (rest' : Equations), solve acc' ((a, b) :: rest') = .error e) →
      motive acc ((a, b) :: rest))
    (bind : ∀ acc a b (rest : Equations) v t, (a = .var v ∧ b = t ∨ a = t ∧ b = .var v) →
      t ≠ .var v → t.occurs v = false →
      (∀ acc' (rest' : Equations),
        solve acc' ((a, b) :: rest') = solve (acc'.assign v t) (rest'.substVar v t)) →
      motive (acc.assign v t) (rest.substVar v t) → motive acc ((a, b) :: rest)) :
    ∀ acc eqs, motive acc eqs := by
  intro acc eqs
  induction acc, eqs using solve.induct with
  | case1 acc => exact nil acc
  | case2 acc q rest ih =>
    exact split acc _ _ rest [] (fun _ _ => by rw [solve.eq_2, if_pos rfl]; rfl) (by simp) ih
  | case3 acc p q rest hne =>
    exact fail acc _ _ rest _ (fun _ _ => by rw [solve.eq_2, if_neg hne])
  | case4 acc v rest ih =>
    exact split acc _ _ rest [] (fun _ _ => by rw [solve.eq_3, if_pos rfl]; rfl) (by simp) ih
  | case5 acc v t rest hne hocc =>
    exact fail acc _ _ rest _ (fun _ _ => by rw [solve.eq_3, if_neg hne, if_pos hocc])
  | case6 acc v t rest hne hocc ih =>
    exact bind acc _ _ rest v t (Or.inl ⟨rfl, rfl⟩) hne (by simpa using hocc)
      (fun _ _ => by rw [solve.eq_3, if_neg hne, if_neg hocc]) ih
  -- a variable on the right equated with itself was taken by the rule on the left
  | case7 acc v rest hnot _ => exact absurd rfl (hnot v)
  | case8 acc t v rest hnot hne hocc =>
    exact fail acc _ _ rest _ (fun _ _ => by rw [solve.eq_4 _ _ _ _ hnot, if_neg hne, if_pos hocc])
  | case9 acc t v rest hnot hne hocc ih =>
    exact bind acc _ _ rest v t (Or.inr ⟨rfl, rfl⟩) hne (by simpa using hocc)
      (fun _ _ => by rw [solve.eq_4 _ _ _ _ hnot, if_neg hne, if_neg hocc]) ih
  | case10 acc a₁ b₁ a₂ b₂ rest ih =>
    refine split acc _ _ rest [(a₁, a₂), (b₁, b₂)] (fun _ _ => solve.eq_5 ..) (fun w hw => ?_) ih
    simp only [vars_cons, vars_nil, List.append_nil, List.mem_append] at hw
    simp only [Ty.vars_arrow, List.mem_append]
    tauto
  | case11 acc a b rest ih =>
    exact split acc _ _ rest [(a, b)] (fun _ _ => solve.eq_6 ..) (fun w hw => by simpa using hw) ih
  | case12 acc xs ys rest hlen ih =>
    refine split acc _ _ rest (xs.zip ys) (fun _ _ => by rw [solve.eq_7, if_pos hlen])
      (fun w hw => ?_) ih
    rw [Ty.vars_tuple, Ty.vars_tuple]
    rcases mem_vars_zip hw with h | h
    · exact List.mem_append_left _ h
    · exact List.mem_append_right _ h
  | case13 acc xs ys rest hlen =>
    exact fail acc _ _ rest _ (fun _ _ => by rw [solve.eq_7, if_neg hlen])
  | case14 acc a b rest hpp hva hvb har hli htu =>
    exact fail acc _ _ rest _ (fun _ _ => solve.eq_8 _ _ _ _ hpp hva hvb har hli htu)

/-- Solving a concatenation solves the first part, then the second part read through the
result. -/
theorem solve_append : ∀ (acc : Subst) (eqs₁ eqs₂ : Equations), acc.Resolved →
    Unbound acc (eqs₁ ++ eqs₂) →
    solve acc (eqs₁ ++ eqs₂) = (solve acc eqs₁).bind fun r => solve r (eqs₂.apply r) := by
  refine solve_induction ?_ ?_ ?_ ?_
  · intro acc eqs₂ _ hu
    rw [List.nil_append, solve.eq_1]
    exact congrArg (solve acc) (apply_of_unbound hu).symm
  · intro acc a b rest hd hstep hvars ih eqs₂ hacc hu
    rw [List.cons_append, hstep, hstep, ← List.append_assoc]
    refine ih eqs₂ hacc (hu.of_subset (fun w hw => ?_))
    simp only [List.cons_append, vars_cons, vars_append, List.mem_append] at hw ⊢
    rcases hw with (hw | hw) | hw
    · exact Or.inl (List.mem_append.1 (hvars w hw))
    · exact Or.inr (Or.inl hw)
    · exact Or.inr (Or.inr hw)
  · intro acc a b rest e hfail eqs₂ _ _
    rw [List.cons_append, hfail, hfail]
    rfl
  · intro acc a b rest v t hab hne hocc hstep ih eqs₂ hacc hu
    rw [List.cons_append] at hu ⊢
    rw [hstep, hstep, substVar_append]
    have hv : v ∉ t.vars := (Ty.occurs_eq_false_iff v t).1 hocc
    have hacc' := hacc.assign (fun w hw => hu w ((mem_vars_of_bind hab).2 w hw)) hv
    have hu' := hu.bind hab hocc
    rw [substVar_append] at hu'
    rw [ih _ hacc' hu']
    cases hr : solve (acc.assign v t) (rest.substVar v t) with
    | error e => rfl
    | ok r =>
      -- the result reads `v` as it reads `t`, so the rest reads alike with `v` replaced or not
      have habs := ((solvesTo_of_solve hr).absorbs hacc' hu'.left).1 v
      rw [Subst.image_assign (hu v (mem_vars_of_bind hab).1), if_pos rfl] at habs
      exact congrArg (solve r) (apply_substVar_of habs eqs₂)

/-- Solving from `acc` composed with `base` is solving from `base` and composing `acc` with the
result, when `base` mentions no variable that `acc` binds and neither binds a variable of the
equations. The steps do not look at the substitution, so both runs take the same steps; a
binding made in both keeps them related. -/
theorem solve_of_compose : ∀ (base : Subst) (eqs : Equations) (acc ab : Subst), acc.Canonical →
    base.Canonical → (∀ w, base.Mentions w → acc.find? w = none) → Unbound acc eqs →
    Unbound base eqs → acc.compose base = .ok ab →
    solve ab eqs = (solve base eqs).bind acc.compose := by
  refine solve_induction ?_ ?_ ?_ ?_
  · intro base acc ab _ _ _ _ _ hab
    rw [solve.eq_1, solve.eq_1]
    exact hab.symm
  · intro base a b rest hd hstep hvars ih acc ab hacc hbase hm hua hub hab
    have hsub : ∀ w ∈ (hd ++ rest).vars, w ∈ vars ((a, b) :: rest) := fun w hw => by
      simp only [vars_append, vars_cons, List.mem_append] at hw ⊢
      rcases hw with hw | hw
      · exact Or.inl (List.mem_append.1 (hvars w hw))
      · exact Or.inr hw
    rw [hstep, hstep]
    exact ih acc ab hacc hbase hm (hua.of_subset hsub) (hub.of_subset hsub) hab
  · intro base a b rest e hfail acc ab _ _ _ _ _ _
    rw [hfail, hfail]
    rfl
  · intro base a b rest v t hvt hne hocc hstep ih acc ab hacc hbase hm hua hub hab
    rw [hstep, hstep]
    obtain ⟨hvmem, htmem⟩ :
        v ∈ vars ((a, b) :: rest) ∧ ∀ w ∈ t.vars, w ∈ vars ((a, b) :: rest) :=
      mem_vars_of_bind hvt
    have hv : v ∉ t.vars := (Ty.occurs_eq_false_iff v t).1 hocc
    -- `ab` reads a type through `acc` and then `base`, and so binds neither `v` nor `t`'s variables
    obtain ⟨r, hr, hrc, happly⟩ := Subst.compose_of_unbound hacc hbase hm
    rw [hab] at hr
    cases hr
    have hfree : ∀ w ∈ vars ((a, b) :: rest), ab.find? w = none := fun w hw =>
      Subst.find?_eq_none_of_apply hrc.resolved happly (hua w hw) (hub w hw)
    have hbase' : (base.assign v t).Canonical :=
      ⟨Subst.Sorted.assign hbase.sorted v t,
        hbase.resolved.assign (fun w hw => hub w (htmem w hw)) hv⟩
    have hab' : (ab.assign v t).Canonical :=
      ⟨Subst.Sorted.assign hrc.sorted v t,
        hrc.resolved.assign (fun w hw => hfree w (htmem w hw)) hv⟩
    have hm' : ∀ w, (base.assign v t).Mentions w → acc.find? w = none := by
      intro w hw
      rcases Subst.mentions_assign hw with rfl | hw | hw
      · exact hua w hvmem
      · exact hua w (htmem w hw)
      · exact hm w hw
    -- composing `acc` with the extended `base` is the extended `ab`: both read alike
    have hcomp : acc.compose (base.assign v t) = .ok (ab.assign v t) := by
      obtain ⟨r', hr', hr'c, happly'⟩ := Subst.compose_of_unbound hacc hbase' hm'
      rw [hr']
      refine congrArg Except.ok (Subst.eq_of_apply_var_eq hr'c hab' (fun w => ?_))
      rw [happly', Subst.apply_assign (hub v hvmem), Subst.apply_assign (hfree v hvmem), happly]
    refine ih acc (ab.assign v t) hacc hbase' hm' (fun w hw => ?_) (hub.bind hvt hocc) hcomp
    rcases mem_vars_substVar hw with hw | ⟨hw, -⟩
    · exact hua w (htmem w hw)
    · exact hua w (vars_subset_cons _ _ w hw)

/-- Solving from a canonical start that binds no variable of the equations is solving from the
empty substitution and composing the start with the result. -/
theorem solve_eq_bind_compose {acc : Subst} {eqs : Equations} (hacc : acc.Canonical)
    (hu : Unbound acc eqs) : solve acc eqs = (solve Subst.empty eqs).bind acc.compose :=
  solve_of_compose Subst.empty eqs acc acc hacc ⟨Subst.sorted_empty, Subst.resolved_empty⟩
    (fun w hw => absurd hw (Subst.not_mentions_empty w)) hu (fun _ _ => rfl) rfl

namespace Subst

/-- One step of unifying equations from the left: the unifier of an equation read through `s`,
merged into `s`. -/
def mergeEquation (s : Subst) (e : Ty × Ty) : Except TypeError Subst :=
  s.mergeUnifier (s.apply e.1) (s.apply e.2)

theorem Canonical.mergeEquation {s r : Subst} {e : Ty × Ty} (hs : s.Canonical)
    (h : s.mergeEquation e = .ok r) : r.Canonical :=
  ⟨Sorted.mergeUnifier hs.sorted h, (mergeUnifier_spec hs.resolved h).1⟩

/-- Folding `mergeEquation` over equations read first through `f`, from a substitution that
does not see `f`, is folding it over the equations themselves: every step absorbs the one
before it, and so does not see `f` either. -/
theorem foldlM_mergeEquation_map {f : Ty → Ty} :
    ∀ (eqs : Equations) (s : Subst), s.Resolved → (∀ x, s.apply (f x) = s.apply x) →
      (eqs.map (Prod.map f f)).foldlM mergeEquation s = eqs.foldlM mergeEquation s
  | [], _, _, _ => rfl
  | (x, y) :: rest, s, hs, hf => by
    have hstep : s.mergeEquation (Prod.map f f (x, y)) = s.mergeEquation (x, y) := by
      simp only [mergeEquation, Prod.map, hf]
    rw [List.map_cons, List.foldlM_cons, List.foldlM_cons, hstep]
    cases hm : s.mergeEquation (x, y) with
    | error e => rfl
    | ok r =>
      obtain ⟨hr, habs, -, -⟩ := mergeUnifier_spec hs hm
      refine foldlM_mergeEquation_map rest r hr (fun z => ?_)
      calc r.apply (f z)
          = (s.apply (f z)).substWith r.image := (habs.apply (f z)).symm
        _ = (s.apply z).substWith r.image := by rw [hf]
        _ = r.apply z := habs.apply z

end Subst

/-- From a canonical start that binds no variable of the equations, the work list unifies the
equations one at a time from the left, each read through the substitution so far and its
unifier merged in. -/
theorem solve_eq_foldlM (eqs : Equations) (acc : Subst) (hacc : acc.Canonical)
    (hu : Unbound acc eqs) : solve acc eqs = eqs.foldlM Subst.mergeEquation acc := by
  cases eqs with
  | nil => exact solve.eq_1 acc
  | cons e rest =>
    obtain ⟨x, y⟩ := e
    have hhead : solve acc [(x, y)] = (unify x y).bind acc.compose :=
      solve_eq_bind_compose hacc (hu : Unbound acc ([(x, y)] ++ rest)).left
    have hstep : acc.mergeEquation (x, y) = (unify x y).bind acc.compose := by
      rw [Subst.mergeEquation, Subst.apply_eq_self_of_free (fun w hw => hu w (by simp [hw])),
        Subst.apply_eq_self_of_free (fun w hw => hu w (by simp [hw]))]
      rfl
    rw [show (x, y) :: rest = [(x, y)] ++ rest from rfl, solve_append acc _ _ hacc.resolved hu,
      hhead, List.singleton_append, List.foldlM_cons, hstep]
    cases hm : (unify x y).bind acc.compose with
    | error e => rfl
    | ok r =>
      have hr : r.Canonical := hacc.mergeEquation (hstep.trans hm)
      -- the rest, read through `r`, is unbound in `r`, and `r` does not see the reading
      show solve r (Equations.apply rest r) = rest.foldlM Subst.mergeEquation r
      rw [solve_eq_foldlM (Equations.apply rest r) r hr (fun w hw => ?_),
        Equations.apply, Subst.foldlM_mergeEquation_map rest r hr.resolved hr.resolved.apply_apply]
      obtain ⟨e, he, hw⟩ := List.mem_flatMap.1 hw
      obtain ⟨e', -, rfl⟩ := List.mem_map.1 he
      rcases List.mem_append.1 hw with hw | hw
      · exact hr.resolved.apply_free e'.1 w hw
      · exact hr.resolved.apply_free e'.2 w hw
termination_by eqs.length
decreasing_by subst_vars; simp

/-- The outer constructors of two types agree, so that unifying them goes on inside them: two
equal base types, two arrows, two lists or two tuples. -/
def Ty.SameHead : Ty → Ty → Prop
  | .prim p, .prim q => p = q
  | .arrow _ _, .arrow _ _ => True
  | .list _, .list _ => True
  | .tuple _, .tuple _ => True
  | _, _ => False

section Unify

variable {a b t : Ty} {v : Nat}

/-- A variable on the left and another type: the singleton binding the variable. -/
theorem unify_var_left (h : t ≠ .var v) : unify (.var v) t = Subst.singleton v t := by
  show solve Subst.empty [(.var v, t)] = _
  rw [solve.eq_3, if_neg h, Subst.singleton]
  split
  · rfl
  · show solve _ [] = _
    rw [solve.eq_1]
    rfl

/-- A type that is not a variable and a variable on the right: the singleton binding the
variable. -/
theorem unify_var_right (h : ∀ w, t ≠ .var w) : unify t (.var v) = Subst.singleton v t := by
  show solve Subst.empty [(t, .var v)] = _
  rw [solve.eq_4 _ _ _ _ h, if_neg (h v), Subst.singleton]
  split
  · rfl
  · show solve _ [] = _
    rw [solve.eq_1]
    rfl

/-- Two lists unify as their elements. -/
theorem unify_list (a b : Ty) : unify (.list a) (.list b) = unify a b :=
  solve.eq_6 ..

/-- Two arrows: the domains are unified, then the ranges read through the domains' unifier, and
the two unifiers are composed. -/
theorem unify_arrow (a₁ b₁ a₂ b₂ : Ty) :
    unify (.arrow a₁ b₁) (.arrow a₂ b₂) =
      (unify a₁ a₂).bind fun s₁ => (unify (s₁.apply b₁) (s₁.apply b₂)).bind s₁.compose := by
  show solve Subst.empty [(.arrow a₁ b₁, .arrow a₂ b₂)] = _
  rw [solve.eq_5, solve_eq_foldlM _ _ ⟨Subst.sorted_empty, Subst.resolved_empty⟩ (fun _ _ => rfl),
    List.foldlM_cons]
  have hfirst : Subst.empty.mergeEquation (a₁, a₂) = unify a₁ a₂ := by
    simp only [Subst.mergeEquation, Subst.mergeUnifier, Subst.apply_empty]
    cases h₁ : unify a₁ a₂ with
    | error e => rfl
    | ok s₁ => exact Subst.empty_compose (Subst.Reachable.unify h₁).canonical
  rw [hfirst]
  cases unify a₁ a₂ with
  | error e => rfl
  | ok s₁ =>
    show (s₁.mergeEquation (b₁, b₂)).bind pure = s₁.mergeEquation (b₁, b₂)
    cases s₁.mergeEquation (b₁, b₂) <;> rfl

/-- Two arrows whose domains unify: the ranges, read through the domains' unifier, are unified,
and the two unifiers composed. -/
theorem unify_arrow_of_ok {a₁ b₁ a₂ b₂ : Ty} {s₁ : Subst} (h : unify a₁ a₂ = .ok s₁) :
    unify (.arrow a₁ b₁) (.arrow a₂ b₂) = (unify (s₁.apply b₁) (s₁.apply b₂)).bind s₁.compose := by
  rw [unify_arrow, h]
  rfl

/-- Two tuples of one length fold over their components from the empty substitution, each pair
read through the substitution so far and its unifier merged in; tuples of two lengths clash. -/
theorem unify_tuple (xs ys : List Ty) :
    unify (.tuple xs) (.tuple ys) =
      if xs.length = ys.length then (xs.zip ys).foldlM Subst.mergeEquation Subst.empty
      else .error (.mismatch (.tuple xs) (.tuple ys)) := by
  show solve Subst.empty [(.tuple xs, .tuple ys)] = _
  rw [solve.eq_7, List.append_nil]
  split
  · exact solve_eq_foldlM _ _ ⟨Subst.sorted_empty, Subst.resolved_empty⟩ (fun _ _ => rfl)
  · rfl

/-- Two types, neither a variable, whose outer constructors differ fail to unify, naming the two
types. -/
theorem unify_clash (ha : ∀ v, a ≠ .var v) (hb : ∀ v, b ≠ .var v) (hs : ¬ a.SameHead b) :
    unify a b = .error (.mismatch a b) := by
  show solve Subst.empty [(a, b)] = _
  by_cases hprim : ∃ p q, a = .prim p ∧ b = .prim q
  · obtain ⟨p, q, rfl, rfl⟩ := hprim
    have hpq : ¬ p = q := hs
    rw [solve.eq_2, if_neg hpq]
  · refine solve.eq_8 _ _ _ _ (fun p q hp hq => hprim ⟨p, q, hp, hq⟩) ha hb ?_ ?_ ?_
    · rintro _ _ _ _ rfl rfl
      exact hs trivial
    · rintro _ _ rfl rfl
      exact hs trivial
    · rintro _ _ rfl rfl
      exact hs trivial

end Unify

end HindleyMilner
