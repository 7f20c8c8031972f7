import HindleyMilner.Proofs.Subst.Merge
/-!
# Every substitution built is idempotent

A substitution can be read by following chains: a bound variable is replaced by its target, which
is read again (`Subst.Follows`). On a substitution whose targets mention bound variables this
reading takes several rounds, and on a cycle it never ends. The one-pass `apply` agrees with it
only when every chain has length one.

The substitutions the library builds are those reachable from `empty` and accepted singletons by
composing either way round, removing bindings and unifying (`Subst.Reachable`). Each of them has
ascending keys and is resolved (`Reachable.canonical`), and so (`Reachable.idempotent`):

* no variable of a stored target is a key;
* following chains always ends, and ends exactly at the one-pass `apply`;
* applying twice is applying once;
* a key reads as its stored target.
-/

namespace HindleyMilner

namespace Subst

mutual

/-- `Follows s t u`: reading `t` through `s` by following chains ends with `u`. A bound variable
reads as its target read again; everything else is read component by component. A derivation is
a run of the reading that ends. -/
inductive Follows (s : Subst) : Ty → Ty → Prop
  | bound {v : Nat} {t u : Ty} : s.find? v = some t → Follows s t u → Follows s (.var v) u
  | free {v : Nat} : s.find? v = none → Follows s (.var v) (.var v)
  | prim (p : Prim) : Follows s (.prim p) (.prim p)
  | arrow {a b a' b' : Ty} : Follows s a a' → Follows s b b' →
      Follows s (.arrow a b) (.arrow a' b')
  | tuple {items items' : List Ty} : FollowsList s items items' →
      Follows s (.tuple items) (.tuple items')
  | list {a a' : Ty} : Follows s a a' → Follows s (.list a) (.list a')

/-- `Follows` on each item of a list. -/
inductive FollowsList (s : Subst) : List Ty → List Ty → Prop
  | nil : FollowsList s [] []
  | cons {a a' : Ty} {as as' : List Ty} : Follows s a a' → FollowsList s as as' →
      FollowsList s (a :: as) (a' :: as')

end

variable {s : Subst}

theorem follows_var_iff {v : Nat} {u : Ty} : Follows s (.var v) u ↔
    (∃ t, s.find? v = some t ∧ Follows s t u) ∨ (s.find? v = none ∧ u = .var v) := by
  constructor
  · intro h
    cases h with
    | bound hv ht => exact Or.inl ⟨_, hv, ht⟩
    | free hv => exact Or.inr ⟨hv, rfl⟩
  · rintro (⟨t, hv, ht⟩ | ⟨hv, rfl⟩)
    · exact .bound hv ht
    · exact .free hv

theorem follows_prim_iff {p : Prim} {u : Ty} : Follows s (.prim p) u ↔ u = .prim p := by
  constructor
  · intro h
    cases h
    rfl
  · rintro rfl
    exact .prim p

theorem follows_arrow_iff {a b u : Ty} :
    Follows s (.arrow a b) u ↔ ∃ a' b', Follows s a a' ∧ Follows s b b' ∧ u = .arrow a' b' := by
  constructor
  · intro h
    cases h with
    | arrow ha hb => exact ⟨_, _, ha, hb, rfl⟩
  · rintro ⟨a', b', ha, hb, rfl⟩
    exact .arrow ha hb

theorem follows_tuple_iff {items : List Ty} {u : Ty} :
    Follows s (.tuple items) u ↔ ∃ items', FollowsList s items items' ∧ u = .tuple items' := by
  constructor
  · intro h
    cases h with
    | tuple h => exact ⟨_, h, rfl⟩
  · rintro ⟨items', h, rfl⟩
    exact .tuple h

theorem follows_list_iff {a u : Ty} :
    Follows s (.list a) u ↔ ∃ a', Follows s a a' ∧ u = .list a' := by
  constructor
  · intro h
    cases h with
    | list h => exact ⟨_, h, rfl⟩
  · rintro ⟨a', h, rfl⟩
    exact .list h

theorem followsList_nil_iff {us : List Ty} : FollowsList s [] us ↔ us = [] := by
  constructor
  · intro h
    cases h
    rfl
  · rintro rfl
    exact .nil

theorem followsList_cons_iff {a : Ty} {as us : List Ty} : FollowsList s (a :: as) us ↔
    ∃ a' as', Follows s a a' ∧ FollowsList s as as' ∧ us = a' :: as' := by
  constructor
  · intro h
    cases h with
    | cons ha has => exact ⟨_, _, ha, has, rfl⟩
  · rintro ⟨a', as', ha, has, rfl⟩
    exact .cons ha has

/-- When each variable of `t` reads as its image under `f` and as nothing else, so does `t` as a
whole: the reading is the replacement by `f`. -/
theorem follows_iff_substWith {f : Nat → Ty} :
    ∀ t : Ty, (∀ v ∈ t.vars, ∀ u, Follows s (.var v) u ↔ u = f v) →
      ∀ u, Follows s t u ↔ u = t.substWith f
  | .var v, h, u => by
    simpa [Ty.substWith] using h v (by simp [Ty.vars]) u
  | .prim p, _, u => by
    simp [follows_prim_iff, Ty.substWith]
  | .arrow a b, h, u => by
    simp only [Ty.vars_arrow, List.mem_append] at h
    have ha := follows_iff_substWith a (fun v hv => h v (Or.inl hv))
    have hb := follows_iff_substWith b (fun v hv => h v (Or.inr hv))
    simp [follows_arrow_iff, ha, hb, Ty.substWith]
  | .tuple items, h, u => by
    simp only [Ty.vars_tuple] at h
    simp [follows_tuple_iff, followsList_iff_substWithList items h, Ty.substWith]
  | .list a, h, u => by
    simp only [Ty.vars_list] at h
    simp [follows_list_iff, follows_iff_substWith a h, Ty.substWith]
where
  /-- The list form of `follows_iff_substWith`. -/
  followsList_iff_substWithList :
      ∀ ts : List Ty, (∀ v ∈ Ty.varsList ts, ∀ u, Follows s (.var v) u ↔ u = f v) →
        ∀ us, FollowsList s ts us ↔ us = Ty.substWithList f ts
    | [], _, us => by
      simp [followsList_nil_iff, Ty.substWithList]
    | t :: ts, h, us => by
      simp only [Ty.varsList_cons, List.mem_append] at h
      have ht := follows_iff_substWith t (fun v hv => h v (Or.inl hv))
      have hts := followsList_iff_substWithList ts (fun v hv => h v (Or.inr hv))
      simp [followsList_cons_iff, ht, hts, Ty.substWithList]

/-- A type none of whose variables is bound reads as itself. -/
theorem follows_iff_of_free {t : Ty} (h : ∀ w ∈ t.vars, s.find? w = none) (u : Ty) :
    Follows s t u ↔ u = t := by
  have hvar : ∀ v ∈ t.vars, ∀ u, Follows s (.var v) u ↔ u = .var v := by
    intro v hv u
    simp [follows_var_iff, h v hv]
  rw [follows_iff_substWith t hvar u, apply_empty.substWith_var]

/-- Under a resolved substitution, following chains ends, and exactly at the one-pass `apply`. -/
theorem Resolved.follows_iff (hs : s.Resolved) (t u : Ty) : Follows s t u ↔ u = s.apply t := by
  rw [apply_eq_substWith]
  refine follows_iff_substWith t (fun v _ u => ?_) u
  cases hv : s.find? v with
  | none => simp [follows_var_iff, hv]
  | some tv =>
    -- the target binds nothing, so it reads as itself: the chain has length one
    simp [follows_var_iff, hv, follows_iff_of_free (hs v tv hv)]

/-- The substitutions the library builds: the empty one, accepted singletons, and what composing
(either way round), removing bindings and unifying give. -/
inductive Reachable : Subst → Prop
  | empty : Reachable empty
  | singleton {v : Nat} {t : Ty} {s : Subst} : Subst.singleton v t = .ok s → Reachable s
  | compose {s o r : Subst} : Reachable s → Reachable o → s.compose o = .ok r → Reachable r
  | without {s : Subst} (vs : List Nat) : Reachable s → Reachable (s.without vs)
  | unify {a b : Ty} {s : Subst} : HindleyMilner.unify a b = .ok s → Reachable s

/-- The invariant of every substitution built: keys in ascending order, and resolved. -/
structure Canonical (s : Subst) : Prop where
  sorted : SortedMap.Sorted s
  resolved : s.Resolved

/-- An accepted singleton holds one entry. -/
theorem sorted_of_singleton {v : Nat} {t : Ty} (h : singleton v t = .ok s) :
    SortedMap.Sorted s := by
  unfold singleton at h
  split at h
  · cases h
  · cases h
    exact List.pairwise_singleton _ _

/-- Every way of building a substitution keeps it canonical. -/
theorem Reachable.canonical (h : Reachable s) : Canonical s := by
  induction h with
  | empty => exact ⟨sorted_empty, resolved_empty⟩
  | singleton h => exact ⟨sorted_of_singleton h, resolved_of_singleton h⟩
  | compose _ _ h ih _ => exact ⟨Sorted.compose ih.sorted h, ih.resolved.compose h⟩
  | without vs _ ih => exact ⟨ih.sorted.filter _, ih.resolved.without vs⟩
  | unify h => exact ⟨sorted_unify h, resolved_unify h⟩

/-- In a canonical substitution no variable of a stored target is a key. -/
theorem Canonical.not_mem_keys (h : Canonical s) {k : Nat} {t : Ty} (hk : (k, t) ∈ s.entries)
    {w : Nat} (hw : w ∈ t.vars) : w ∉ s.keys := by
  intro hwk
  have hfind : s.find? k = some t := h.sorted.find?_eq_some_iff.2 hk
  obtain ⟨a, ha⟩ := SortedMap.find?_isSome_of_mem_keys hwk
  rw [h.resolved k t hfind w hw] at ha
  cases ha

/-- What idempotence asks of a substitution, read through chain-following. -/
structure Idempotent (s : Subst) : Prop where
  /-- No variable of a stored target is a key. -/
  target_not_key : ∀ k t, (k, t) ∈ s.entries → ∀ w ∈ t.vars, w ∉ s.keys
  /-- Following chains ends, and exactly at the one-pass application. -/
  follows_iff : ∀ t u, Follows s t u ↔ u = s.apply t
  /-- Applying twice is applying once. -/
  apply_apply : ∀ t, s.apply (s.apply t) = s.apply t
  /-- A key reads as its stored target. -/
  follows_key : ∀ k t, s.find? k = some t → Follows s (.var k) t

/-- A canonical substitution is idempotent, however it was built. -/
theorem Canonical.toIdempotent (hc : Canonical s) : Idempotent s := by
  refine ⟨fun k t hk w hw => hc.not_mem_keys hk hw, hc.resolved.follows_iff,
    hc.resolved.apply_apply, fun k t hk => ?_⟩
  rw [hc.resolved.follows_iff, apply_var_eq_image, image_of_find? hk]

/-- Every substitution the library builds is idempotent. -/
theorem Reachable.idempotent (h : Reachable s) : Idempotent s :=
  h.canonical.toIdempotent

/-- Composing `0 ↦ 1 → 1` with `1 ↦ int` gives `0 ↦ int → int, 1 ↦ int`, which is idempotent. -/
theorem idempotent_of_composed_singletons :
    Reachable ⟨[(0, .arrow (.prim .int) (.prim .int)), (1, .prim .int)]⟩ ∧
      Idempotent ⟨[(0, .arrow (.prim .int) (.prim .int)), (1, .prim .int)]⟩ :=
  have h : Reachable ⟨[(0, .arrow (.prim .int) (.prim .int)), (1, .prim .int)]⟩ :=
    .compose (o := ⟨[(1, .prim .int)]⟩) (.singleton (v := 0) (t := .arrow (.var 1) (.var 1)) rfl)
      (.singleton (v := 1) (t := .prim .int) rfl) rfl
  ⟨h, Reachable.idempotent h⟩

end Subst

end HindleyMilner
