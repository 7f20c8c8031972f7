import HindleyMilner.Proofs.Unify.Solve
/-!
# What composing computes

`s.compose o` merges the bindings of `o` into `s` one at a time. Started from a resolved `s`,
every step keeps the substitution resolved and absorbs the one before it, and after a binding
`v ↦ t` has been merged, the substitution sends `v` where it sends `t`, and every later step
keeps that. So the result `r` (`compose_spec`):

* is resolved (`Resolved.compose`), and sorted when `s` is (`Sorted.compose`);
* absorbs both `s` and `o`: applying `s` or `o` first changes nothing that `r` would give;
* mentions only what `s` or `o` mention.

The same holds of each step: `extend` (`extend_spec`), the merge of a unifier for an overlapping
key (`extendAll_spec`) and `bind` (`bind_spec`); and of `mergeUnifier`, whose result also makes
the two unified types equal (`mergeUnifier_spec`).
-/

namespace HindleyMilner

/-- Replacing a variable that does not occur changes nothing. -/
theorem Ty.substVar_eq_self {t u : Ty} {v : Nat} (h : v ∉ t.vars) : t.substVar v u = t := by
  refine Ty.substWith_eq_self (fun w hw => ?_)
  have hwv : w ≠ v := by
    rintro rfl
    exact h hw
  simp [hwv]

namespace Subst

variable {s r : Subst} {v : Nat} {t : Ty}

/-- Assigning a variable that `s` does not bind: `s` first, then `v` replaced. -/
theorem apply_assign (hv : s.find? v = none) (x : Ty) :
    (s.assign v t).apply x = (s.apply x).substVar v t := by
  rw [apply_eq_substWith, apply_eq_substWith, Ty.substVar, Ty.substWith_substWith]
  apply Ty.substWith_congr
  intro w _
  rw [image_assign hv]
  by_cases hwv : w = v
  · subst hwv
    rw [image_of_find?_eq_none hv, if_pos rfl]
    simp [Ty.substWith]
  · rw [if_neg hwv]
    rfl

/-- `extend` of a variable that `s` does not bind: the result is resolved, absorbs `s`, sends `v`
where it sends `t`, binds only `v` besides the keys of `s`, and mentions only what `s` and the
binding mention. -/
theorem extend_spec (hs : s.Resolved) (hv : s.find? v = none) (h : s.extend v t = .ok r) :
    r.Resolved ∧ AbsorbsSubst r.image s ∧ r.image v = r.apply t ∧
      (∀ w, s.find? w = none → w ≠ v → r.find? w = none) ∧
      (∀ w, r.Mentions w → s.Mentions w ∨ w = v ∨ w ∈ t.vars) := by
  refine ⟨hs.extend h, ?_⟩
  rcases extend_eq_ok.1 h with ⟨halias, rfl⟩ | ⟨-, hocc, rfl⟩
  · -- `v ↦ t` reads as `v ↦ v`: nothing is added
    refine ⟨hs.absorbs, ?_, fun w hw _ => hw, fun w hw => Or.inl hw⟩
    rw [image_of_find?_eq_none hv, halias]
  · have hv' : v ∉ (s.apply t).vars := (Ty.occurs_eq_false_iff v _).1 hocc
    refine ⟨fun w => ?_, ?_, fun w hw hwv => ?_, fun w hw => ?_⟩
    · rw [← apply_eq_substWith, apply_assign hv, ← apply_var_eq_image, ← apply_var_eq_image,
        apply_assign hv, hs.apply_apply]
    · rw [← apply_var_eq_image, apply_assign hv, apply_assign hv, apply_var_eq_image,
        image_of_find?_eq_none hv]
      rw [Ty.substVar_eq_self hv']
      simp [Ty.substVar, Ty.substWith]
    · rw [find?_assign, if_neg (Ne.symm hwv), hw]
      rfl
    · rcases mentions_assign hw with rfl | hw | hw
      · exact Or.inr (Or.inl rfl)
      · obtain ⟨u, hu, hwu⟩ := mem_vars_apply.1 hw
        rcases mem_vars_image hwu with ⟨tu, htu, hw⟩ | ⟨-, rfl⟩
        · exact Or.inl (mentions_of_find? htu (Or.inr hw))
        · exact Or.inr (Or.inr hu)
      · exact Or.inl hw

/-- Extending by bindings of distinct variables, none bound by `s`, one after another: the result
is resolved, absorbs `s`, sends each variable where it sends its target, and mentions only what
`s` and the bindings mention. -/
theorem extendAll_spec :
    ∀ {s : Subst} {bs : List (Nat × Ty)} {r : Subst}, s.Resolved → (bs.map (·.1)).Nodup →
      (∀ b ∈ bs, s.find? b.1 = none) →
      bs.foldlM (fun acc b => acc.extend b.1 b.2) s = .ok r →
      r.Resolved ∧ AbsorbsSubst r.image s ∧ (∀ b ∈ bs, r.image b.1 = r.apply b.2) ∧
        (∀ w, r.Mentions w → s.Mentions w ∨ ∃ b ∈ bs, w = b.1 ∨ w ∈ b.2.vars)
  | s, [], r, hs, _, _, h => by
    cases h
    exact ⟨hs, hs.absorbs, by simp, fun w hw => Or.inl hw⟩
  | s, b :: bs, r, hs, hnd, hfree, h => by
    rw [List.foldlM_cons] at h
    cases he : s.extend b.1 b.2 with
    | error e =>
      rw [he] at h
      cases h
    | ok s' =>
      rw [he] at h
      obtain ⟨hs', habs', hb, hkeep, hmen'⟩ := extend_spec hs (hfree b List.mem_cons_self) he
      have hnd' := (List.nodup_cons.1 hnd).2
      -- the later variables are still unbound after `b` is merged
      have hfree' : ∀ c ∈ bs, s'.find? c.1 = none := fun c hc =>
        hkeep c.1 (hfree c (List.mem_cons_of_mem _ hc))
          (fun hcb => (List.nodup_cons.1 hnd).1 (List.mem_map.2 ⟨c, hc, hcb⟩))
      obtain ⟨hr, habs, hbs, hmen⟩ := extendAll_spec hs' hnd' hfree' h
      refine ⟨hr, habs.trans habs', fun c hc => ?_, fun w hw => ?_⟩
      · rcases List.mem_cons.1 hc with rfl | hc
        · rw [← habs c.1, hb, habs.apply]
          rfl
        · exact hbs c hc
      · rcases hmen w hw with hw | ⟨c, hc, hwc⟩
        · rcases hmen' w hw with hw | rfl | hw
          · exact Or.inl hw
          · exact Or.inr ⟨b, List.mem_cons_self, Or.inl rfl⟩
          · exact Or.inr ⟨b, List.mem_cons_self, Or.inr hw⟩
        · exact Or.inr ⟨c, List.mem_cons_of_mem _ hc, hwc⟩

/-- A function that sends each bound variable of `u` where it sends its target absorbs `u`. -/
theorem absorbsSubst_of_entries {f : Nat → Ty} {u : Subst}
    (h : ∀ b ∈ u.entries, f b.1 = b.2.substWith f) : AbsorbsSubst f u := by
  intro w
  cases hw : u.find? w with
  | none =>
    rw [image_of_find?_eq_none hw]
    rfl
  | some tw =>
    rw [image_of_find? hw]
    exact (h (w, tw) (SortedMap.mem_entries_of_find? hw)).symm

/-- The unifier of two types read through a resolved `s` binds no variable that `s` binds. -/
theorem Resolved.find?_unify_eq_none (hs : s.Resolved) {e : Ty} {u : Subst}
    (hu : unify (s.apply e) (s.apply t) = .ok u) : ∀ b ∈ u.entries, s.find? b.1 = none := by
  intro b hb
  rcases mentions_unify hu ⟨b.1, b.2, hb, Or.inl rfl⟩ with hw | hw
  · exact hs.apply_free e b.1 hw
  · exact hs.apply_free t b.1 hw

/-- `bind` from a resolved `s`: the result is resolved, absorbs `s`, sends `v` where it sends
`t`, and mentions only what `s` mentions, `v` and the variables of `t`. -/
theorem bind_spec (hs : s.Resolved) (h : s.bind v t = .ok r) :
    r.Resolved ∧ AbsorbsSubst r.image s ∧ r.image v = r.apply t ∧
      (∀ w, r.Mentions w → s.Mentions w ∨ w = v ∨ w ∈ t.vars) := by
  unfold bind at h
  cases hv : s.find? v with
  | none =>
    rw [hv] at h
    obtain ⟨hr, habs, hvt, -, hmen⟩ := extend_spec hs hv h
    exact ⟨hr, habs, hvt, hmen⟩
  | some e =>
    rw [hv] at h
    simp only at h
    cases hu : unify (s.apply e) (s.apply t) with
    | error err =>
      rw [hu] at h
      cases h
    | ok u =>
      rw [hu] at h
      obtain ⟨hr, habs, hbs, hmen⟩ :=
        extendAll_spec hs (sorted_unify hu).nodup_keys (hs.find?_unify_eq_none hu) h
      have habsu : AbsorbsSubst r.image u :=
        absorbsSubst_of_entries (fun b hb => hbs b hb)
      refine ⟨hr, habs, ?_, fun w hw => ?_⟩
      · calc r.image v
            = (s.image v).substWith r.image := (habs v).symm
          _ = (s.apply e).substWith r.image := by
            rw [image_of_find? hv, apply_eq_self_of_free (hs v e hv)]
          _ = (u.apply (s.apply e)).substWith r.image := (habsu.apply _).symm
          _ = (u.apply (s.apply t)).substWith r.image := by rw [unify_apply_eq hu]
          _ = r.apply t := by rw [habsu.apply, habs.apply]; rfl
      · rcases hmen w hw with hw | ⟨b, hb, hwb⟩
        · exact Or.inl hw
        · -- what the unifier mentions occurs in `e` or `t` read through `s`
          have hwu : w ∈ (s.apply e).vars ∨ w ∈ (s.apply t).vars :=
            mentions_unify hu ⟨b.1, b.2, hb, hwb⟩
          rcases hwu with hwu | hwu
          · obtain ⟨x, hx, hwx⟩ := mem_vars_apply.1 hwu
            rcases mem_vars_image hwx with ⟨tx, htx, hw⟩ | ⟨-, rfl⟩
            · exact Or.inl (mentions_of_find? htx (Or.inr hw))
            · exact Or.inl (mentions_of_find? hv (Or.inr hx))
          · obtain ⟨x, hx, hwx⟩ := mem_vars_apply.1 hwu
            rcases mem_vars_image hwx with ⟨tx, htx, hw⟩ | ⟨-, rfl⟩
            · exact Or.inl (mentions_of_find? htx (Or.inr hw))
            · exact Or.inr (Or.inr hx)

/-- Merging bindings one after another from a resolved `s`: the result is resolved, absorbs `s`,
sends each variable where it sends its target, and mentions only what `s` and the bindings
mention. -/
theorem bindAll_spec :
    ∀ {s : Subst} {bs : List (Nat × Ty)} {r : Subst}, s.Resolved →
      bs.foldlM (fun acc b => acc.bind b.1 b.2) s = .ok r →
      r.Resolved ∧ AbsorbsSubst r.image s ∧ (∀ b ∈ bs, r.image b.1 = r.apply b.2) ∧
        (∀ w, r.Mentions w → s.Mentions w ∨ ∃ b ∈ bs, w = b.1 ∨ w ∈ b.2.vars)
  | s, [], r, hs, h => by
    cases h
    exact ⟨hs, hs.absorbs, by simp, fun w hw => Or.inl hw⟩
  | s, b :: bs, r, hs, h => by
    rw [List.foldlM_cons] at h
    cases hb : s.bind b.1 b.2 with
    | error e =>
      rw [hb] at h
      cases h
    | ok s' =>
      rw [hb] at h
      obtain ⟨hs', habs', hbt, hmen'⟩ := bind_spec hs hb
      obtain ⟨hr, habs, hbs, hmen⟩ := bindAll_spec hs' h
      refine ⟨hr, habs.trans habs', fun c hc => ?_, fun w hw => ?_⟩
      · rcases List.mem_cons.1 hc with rfl | hc
        · -- merged first, and kept by every later merge
          rw [← habs c.1, hbt, habs.apply]
          rfl
        · exact hbs c hc
      · rcases hmen w hw with hw | ⟨c, hc, hwc⟩
        · rcases hmen' w hw with hw | rfl | hw
          · exact Or.inl hw
          · exact Or.inr ⟨b, List.mem_cons_self, Or.inl rfl⟩
          · exact Or.inr ⟨b, List.mem_cons_self, Or.inr hw⟩
        · exact Or.inr ⟨c, List.mem_cons_of_mem _ hc, hwc⟩

/-- Composing from a resolved `s`: the result is resolved, absorbs `s`, absorbs `o`, and
mentions only what `s` or `o` mention. -/
theorem compose_spec {o : Subst} (hs : s.Resolved) (h : s.compose o = .ok r) :
    r.Resolved ∧ AbsorbsSubst r.image s ∧ AbsorbsSubst r.image o ∧
      (∀ w, r.Mentions w → s.Mentions w ∨ o.Mentions w) := by
  obtain ⟨hr, habs, hall, hmen⟩ := bindAll_spec hs h
  refine ⟨hr, habs, absorbsSubst_of_entries (fun b hb => hall b hb), fun w hw => ?_⟩
  rcases hmen w hw with hw | ⟨b, hb, hwb⟩
  · exact Or.inl hw
  · exact Or.inr ⟨b.1, b.2, hb, hwb⟩

/-- Composing keeps a substitution resolved. -/
theorem Resolved.compose {o : Subst} (hs : s.Resolved) (h : s.compose o = .ok r) :
    r.Resolved :=
  (compose_spec hs h).1

/-- Composing with the unifier of `a` and `b`: the result is resolved, absorbs `s`, makes `a`
and `b` equal, and mentions only what `s` mentions and the variables of `a` and `b`. -/
theorem mergeUnifier_spec {a b : Ty} (hs : s.Resolved) (h : s.mergeUnifier a b = .ok r) :
    r.Resolved ∧ AbsorbsSubst r.image s ∧ r.apply a = r.apply b ∧
      (∀ w, r.Mentions w → s.Mentions w ∨ w ∈ a.vars ∨ w ∈ b.vars) := by
  simp only [mergeUnifier] at h
  cases hu : unify a b with
  | error e =>
    rw [hu] at h
    cases h
  | ok u =>
    rw [hu] at h
    obtain ⟨hr, habs, habsu, hmen⟩ := compose_spec hs h
    refine ⟨hr, habs, ?_, fun w hw => ?_⟩
    · calc r.apply a
          = (u.apply a).substWith r.image := (habsu.apply a).symm
        _ = (u.apply b).substWith r.image := by rw [unify_apply_eq hu]
        _ = r.apply b := habsu.apply b
    · rcases hmen w hw with hw | hw
      · exact Or.inl hw
      · exact Or.inr (mentions_unify hu hw)

/-- A property that each step of a fold in `Except` keeps holds of the fold's result. -/
theorem foldlM_invariant {α β ε : Type} {f : β → α → Except ε β} (P : β → Prop)
    (hf : ∀ b a r, P b → f b a = .ok r → P r) :
    ∀ {l : List α} {b r : β}, P b → l.foldlM f b = .ok r → P r
  | [], b, r, hb, h => by
    cases h
    exact hb
  | a :: l, b, r, hb, h => by
    rw [List.foldlM_cons] at h
    cases hab : f b a with
    | error e =>
      rw [hab] at h
      cases h
    | ok b' =>
      rw [hab] at h
      exact foldlM_invariant P hf (hf b a b' hb hab) h

theorem Sorted.extend (hs : SortedMap.Sorted s) (h : s.extend v t = .ok r) :
    SortedMap.Sorted r := by
  rcases extend_eq_ok.1 h with ⟨-, rfl⟩ | ⟨-, -, rfl⟩
  · exact hs
  · exact Sorted.assign hs v _

theorem Sorted.bind (hs : SortedMap.Sorted s) (h : s.bind v t = .ok r) :
    SortedMap.Sorted r := by
  unfold Subst.bind at h
  cases hv : s.find? v with
  | none =>
    rw [hv] at h
    exact Sorted.extend hs h
  | some e =>
    rw [hv] at h
    simp only at h
    cases hu : unify (s.apply e) (s.apply t) with
    | error err =>
      rw [hu] at h
      cases h
    | ok u =>
      rw [hu] at h
      exact foldlM_invariant _ (fun _ _ _ hacc hb => Sorted.extend hacc hb) hs h

/-- Composing keeps a substitution sorted. -/
theorem Sorted.compose {o : Subst} (hs : SortedMap.Sorted s) (h : s.compose o = .ok r) :
    SortedMap.Sorted r :=
  foldlM_invariant _ (fun _ _ _ hacc hb => Sorted.bind hacc hb) hs h

/-- Merging a unifier keeps a substitution sorted. -/
theorem Sorted.mergeUnifier {a b : Ty} (hs : SortedMap.Sorted s)
    (h : s.mergeUnifier a b = .ok r) : SortedMap.Sorted r := by
  simp only [Subst.mergeUnifier] at h
  cases hu : unify a b with
  | error e =>
    rw [hu] at h
    cases h
  | ok u =>
    rw [hu] at h
    exact Sorted.compose hs h

end Subst

end HindleyMilner
