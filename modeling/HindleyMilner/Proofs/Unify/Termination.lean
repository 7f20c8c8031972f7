import HindleyMilner.Proofs.Unify.Recursion
import HindleyMilner.Proofs.Infer.Reachable
/-!
# Unifying, composing and reading through a substitution end

Unification can be written as a recursion on the shapes of the two types, mutually with the
composition of substitutions:

* two arrows: unify the domains, read both ranges through that unifier, unify them, and compose
  the first unifier with the second;
* two tuples of one length: from the empty substitution, unify each pair of components read
  through the substitution so far, and compose the unifier in;
* composing merges the bindings of the second substitution one at a time. A binding of a
  variable already bound unifies the two targets, each read through the substitution so far, and
  composes the unifier in; a binding of a new variable reads its target through the substitution
  so far, drops a binding of the variable to itself, refuses one whose target contains the
  variable, and otherwise adds it, reading every existing target through the new binding;
* reading a type through a substitution follows chains (`Subst.Follows`).

None of these recursions is structural: the ranges of two arrows are unified after being
rewritten, and composing calls unification, which calls composing. The relations `UnifiesTo`,
`PairsUnifyTo`, `ComposesTo` and `BindsTo` record the runs of this recursion that end; they follow
the recursion rule by rule, failures included, and a derivation is a finished run.

Every run ends, with the result the library computes (`unifiesTo_unify`, `composesTo_compose`).
Unification ends by the measure of the work list, (distinct variables, size) of the two types:
the ranges, read through the domains' unifier, lose the variables it binds, or are smaller when
it binds none. The compositions made inside unification and inside a binding of a bound variable
merge a unifier of types read through the substitution, so none of its variables is bound there:
they only add bindings and call unification no further.
-/

namespace HindleyMilner

mutual

/-- `UnifiesTo a b r`: unifying `a` and `b` by recursion on their shapes ends with `r`. The
rules are tried in order: equal base types, a variable equated with itself, a variable on the
left, a variable on the right, two arrows, two lists, two tuples; anything else clashes. -/
inductive UnifiesTo : Ty → Ty → Except TypeError Subst → Prop
  | prim (p : Prim) : UnifiesTo (.prim p) (.prim p) (.ok .empty)
  | refl (v : Nat) : UnifiesTo (.var v) (.var v) (.ok .empty)
  | varLeft {v : Nat} {t : Ty} : t ≠ .var v → UnifiesTo (.var v) t (Subst.singleton v t)
  | varRight {v : Nat} {t : Ty} : (∀ w, t ≠ .var w) →
      UnifiesTo t (.var v) (Subst.singleton v t)
  | arrowDom {a₁ b₁ a₂ b₂ : Ty} {e : TypeError} : UnifiesTo a₁ a₂ (.error e) →
      UnifiesTo (.arrow a₁ b₁) (.arrow a₂ b₂) (.error e)
  | arrowCod {a₁ b₁ a₂ b₂ b₁' b₂' : Ty} {s₁ : Subst} {e : TypeError} :
      UnifiesTo a₁ a₂ (.ok s₁) → Subst.Follows s₁ b₁ b₁' → Subst.Follows s₁ b₂ b₂' →
      UnifiesTo b₁' b₂' (.error e) → UnifiesTo (.arrow a₁ b₁) (.arrow a₂ b₂) (.error e)
  | arrow {a₁ b₁ a₂ b₂ b₁' b₂' : Ty} {s₁ s₂ : Subst} {r : Except TypeError Subst} :
      UnifiesTo a₁ a₂ (.ok s₁) → Subst.Follows s₁ b₁ b₁' → Subst.Follows s₁ b₂ b₂' →
      UnifiesTo b₁' b₂' (.ok s₂) → ComposesTo s₁ s₂.entries r →
      UnifiesTo (.arrow a₁ b₁) (.arrow a₂ b₂) r
  | list {a b : Ty} {r : Except TypeError Subst} : UnifiesTo a b r →
      UnifiesTo (.list a) (.list b) r
  | tuple {xs ys : List Ty} {r : Except TypeError Subst} : xs.length = ys.length →
      PairsUnifyTo .empty (xs.zip ys) r → UnifiesTo (.tuple xs) (.tuple ys) r
  | tupleLength {xs ys : List Ty} : xs.length ≠ ys.length →
      UnifiesTo (.tuple xs) (.tuple ys) (.error (.mismatch (.tuple xs) (.tuple ys)))
  | clash {a b : Ty} : (∀ v, a ≠ .var v) → (∀ v, b ≠ .var v) → ¬ a.SameHead b →
      UnifiesTo a b (.error (.mismatch a b))

/-- `PairsUnifyTo acc pairs r`: from `acc`, unifying each pair read through the substitution so
far and composing its unifier in ends with `r`; the first failure stops it. -/
inductive PairsUnifyTo : Subst → List (Ty × Ty) → Except TypeError Subst → Prop
  | nil (acc : Subst) : PairsUnifyTo acc [] (.ok acc)
  | unifyErr {acc : Subst} {x y x' y' : Ty} {rest : List (Ty × Ty)} {e : TypeError} :
      Subst.Follows acc x x' → Subst.Follows acc y y' → UnifiesTo x' y' (.error e) →
      PairsUnifyTo acc ((x, y) :: rest) (.error e)
  | composeErr {acc u : Subst} {x y x' y' : Ty} {rest : List (Ty × Ty)} {e : TypeError} :
      Subst.Follows acc x x' → Subst.Follows acc y y' → UnifiesTo x' y' (.ok u) →
      ComposesTo acc u.entries (.error e) → PairsUnifyTo acc ((x, y) :: rest) (.error e)
  | cons {acc u acc' : Subst} {x y x' y' : Ty} {rest : List (Ty × Ty)}
      {r : Except TypeError Subst} :
      Subst.Follows acc x x' → Subst.Follows acc y y' → UnifiesTo x' y' (.ok u) →
      ComposesTo acc u.entries (.ok acc') → PairsUnifyTo acc' rest r →
      PairsUnifyTo acc ((x, y) :: rest) r

/-- `ComposesTo acc bs r`: merging the bindings `bs` into `acc`, one at a time, ends with `r`;
the first failure stops it. -/
inductive ComposesTo : Subst → List (Nat × Ty) → Except TypeError Subst → Prop
  | nil (acc : Subst) : ComposesTo acc [] (.ok acc)
  | bindErr {acc : Subst} {v : Nat} {t : Ty} {rest : List (Nat × Ty)} {e : TypeError} :
      BindsTo acc v t (.error e) → ComposesTo acc ((v, t) :: rest) (.error e)
  | cons {acc acc' : Subst} {v : Nat} {t : Ty} {rest : List (Nat × Ty)}
      {r : Except TypeError Subst} :
      BindsTo acc v t (.ok acc') → ComposesTo acc' rest r → ComposesTo acc ((v, t) :: rest) r

/-- `BindsTo acc v t r`: merging the binding `v ↦ t` into `acc` ends with `r`. The target is read
through `acc`. If `acc` binds `v`, its target, read through `acc`, is unified with it and the
unifier composed in. Otherwise a binding of `v` to itself adds nothing, one whose target contains
`v` fails, and any other is added, every existing target read through the new binding. -/
inductive BindsTo : Subst → Nat → Ty → Except TypeError Subst → Prop
  | overlapErr {acc : Subst} {v : Nat} {t e t' e' : Ty} {err : TypeError} :
      acc.find? v = some e → Subst.Follows acc t t' → Subst.Follows acc e e' →
      UnifiesTo e' t' (.error err) → BindsTo acc v t (.error err)
  | overlap {acc u : Subst} {v : Nat} {t e t' e' : Ty} {r : Except TypeError Subst} :
      acc.find? v = some e → Subst.Follows acc t t' → Subst.Follows acc e e' →
      UnifiesTo e' t' (.ok u) → ComposesTo acc u.entries r → BindsTo acc v t r
  | alias {acc : Subst} {v : Nat} {t : Ty} :
      acc.find? v = none → Subst.Follows acc t (.var v) → BindsTo acc v t (.ok acc)
  | occurs {acc : Subst} {v : Nat} {t t' : Ty} :
      acc.find? v = none → Subst.Follows acc t t' → t' ≠ .var v → t'.occurs v = true →
      BindsTo acc v t (.error (.occursCheck v t'))
  | new {acc : Subst} {v : Nat} {t t' : Ty} :
      acc.find? v = none → Subst.Follows acc t t' → t' ≠ .var v → t'.occurs v = false →
      (∀ e ∈ acc.entries, Subst.Follows ⟨[(v, t')]⟩ e.2 (e.2.substVar v t')) →
      BindsTo acc v t (.ok (acc.assign v t'))

end

namespace Subst

variable {s : Subst} {v : Nat} {t : Ty}

/-- Reading through a resolved substitution ends at `apply`. -/
theorem Resolved.follows_apply (hs : s.Resolved) (t : Ty) : Follows s t (s.apply t) :=
  (hs.follows_iff t _).2 rfl

/-- Merging an equation into a resolved substitution unifies its two sides read by following
chains. -/
theorem Resolved.mergeEquation_of_follows (hs : s.Resolved) {x y x' y' : Ty}
    (hx : Follows s x x') (hy : Follows s y y') :
    s.mergeEquation (x, y) = (unify x' y').bind s.compose := by
  rw [(hs.follows_iff _ _).1 hx, (hs.follows_iff _ _).1 hy]
  rfl

/-- Every variable of a type read through `s` is a variable of the type or one `s` mentions. -/
theorem vars_apply_of_mentions {P : Nat → Prop} (hm : ∀ w, s.Mentions w → P w)
    (ht : ∀ w ∈ t.vars, P w) : ∀ w ∈ (s.apply t).vars, P w := by
  intro w hw
  obtain ⟨x, hx, hwx⟩ := mem_vars_apply.1 hw
  rcases mem_vars_image hwx with ⟨tx, htx, hw⟩ | ⟨-, rfl⟩
  · exact hm w (mentions_of_find? htx (Or.inr hw))
  · exact ht w hx

/-- Every variable of two types read through `s` is a variable of one of them or one `s`
mentions. -/
theorem vars_apply_pair_of_mentions {P : Nat → Prop} {x y : Ty} (hm : ∀ w, s.Mentions w → P w)
    (hxy : ∀ w ∈ x.vars ++ y.vars, P w) : ∀ w ∈ (s.apply x).vars ++ (s.apply y).vars, P w := by
  intro w hw
  rcases List.mem_append.1 hw with hw | hw
  · exact vars_apply_of_mentions hm (fun w hw => hxy w (List.mem_append_left _ hw)) w hw
  · exact vars_apply_of_mentions hm (fun w hw => hxy w (List.mem_append_right _ hw)) w hw

/-- Adding a binding by `extend` ends, with the result of `extend`. -/
theorem bindsTo_extend (hs : s.Resolved) (hv : s.find? v = none) (t : Ty) :
    BindsTo s v t (s.extend v t) := by
  have hread := hs.follows_apply t
  simp only [extend]
  by_cases halias : s.apply t = .var v
  · rw [if_pos halias]
    exact .alias hv (halias ▸ hread)
  · rw [if_neg halias]
    cases hocc : (s.apply t).occurs v with
    | true => exact .occurs hv hread halias hocc
    | false =>
      -- the new binding is an accepted singleton, so reading through it replaces `v`
      have hsingle : singleton v (s.apply t) = .ok ⟨[(v, s.apply t)]⟩ := by
        simp [singleton, hocc]
      refine .new hv hread halias hocc (fun e _ => ?_)
      rw [(resolved_of_singleton hsingle).follows_iff, apply_cons_of_fresh (by simp) (by simp)]
      exact (apply_empty _).symm

/-- Adding bindings of distinct variables that `s` leaves unbound, one at a time, ends with the
result of the fold of `extend`. -/
theorem composesTo_extendAll :
    ∀ {s : Subst} {bs : List (Nat × Ty)}, s.Resolved → (bs.map (·.1)).Nodup →
      (∀ b ∈ bs, s.find? b.1 = none) →
      ComposesTo s bs (bs.foldlM (fun acc b => acc.extend b.1 b.2) s)
  | s, [], _, _, _ => .nil s
  | s, (k, u) :: bs, hs, hnd, hfree => by
    have hb := bindsTo_extend hs (hfree (k, u) List.mem_cons_self) u
    rw [List.foldlM_cons]
    cases he : s.extend k u with
    | error e =>
      rw [he] at hb
      exact .bindErr hb
    | ok s' =>
      rw [he] at hb
      refine .cons hb (composesTo_extendAll (hs.extend he) (List.nodup_cons.1 hnd).2 ?_)
      intro c hc
      exact find?_extend_eq_none he (hfree c (List.mem_cons_of_mem _ hc))
        (fun h => (List.nodup_cons.1 hnd).1 (List.mem_map.2 ⟨c, hc, h.symm⟩))

/-- Composing with a sorted substitution none of whose variables `s` binds ends, with the result
of `compose`: every binding is new. -/
theorem composesTo_compose_of_unbound {o : Subst} (hs : s.Resolved) (ho : SortedMap.Sorted o)
    (hfree : ∀ b ∈ o.entries, s.find? b.1 = none) : ComposesTo s o.entries (s.compose o) := by
  rw [compose, bindAll_eq_extendAll ho.nodup_keys hfree]
  exact composesTo_extendAll hs ho.nodup_keys hfree

end Subst

open Equations

/-- Reading two types through a resolved substitution that mentions only variables of `E` makes
them smaller than `E` by the measure of unification, when they are smaller than `E` in size and
their variables are variables of `E`: either the substitution binds a variable of `E`, which
leaves, or it binds none and the types stay as they are. -/
theorem measure_apply_lt {s : Subst} {x y : Ty} {E : Equations} (hs : s.Resolved)
    (hm : ∀ w, s.Mentions w → w ∈ E.vars) (hvars : ∀ w ∈ x.vars ++ y.vars, w ∈ E.vars)
    (hsize : x.size + y.size < E.size) :
    Prod.Lex (· < ·) (· < ·)
      (distinctCount (vars [(s.apply x, s.apply y)]), size [(s.apply x, s.apply y)])
      (distinctCount E.vars, E.size) := by
  by_cases hkey : ∃ k u, s.find? k = some u
  · obtain ⟨k, u, hk⟩ := hkey
    apply Prod.Lex.left
    refine distinctCount_lt_of_subset (v := k) (fun w hw => ?_) (hm k (Subst.mentions_of_find? hk
      (Or.inl rfl))) (fun hw => ?_)
    · simp only [vars_cons, vars_nil, List.append_nil] at hw
      exact Subst.vars_apply_pair_of_mentions hm hvars w hw
    · -- a bound variable does not survive the reading
      simp only [vars_cons, vars_nil, List.append_nil, List.mem_append] at hw
      have hfree : s.find? k = none := by
        rcases hw with hw | hw
        · exact hs.apply_free x k hw
        · exact hs.apply_free y k hw
      rw [hk] at hfree
      cases hfree
  · have hnone : ∀ w, s.find? w = none := fun w => by
      cases hw : s.find? w with
      | none => rfl
      | some u => exact absurd ⟨w, u, hw⟩ hkey
    rw [Subst.apply_eq_self_of_free (fun w _ => hnone w),
      Subst.apply_eq_self_of_free (fun w _ => hnone w)]
    apply measure_lt_of_size_lt
    · intro w hw
      simp only [vars_cons, vars_nil, List.append_nil] at hw
      exact hvars w hw
    · simpa using hsize

/-- Two types have the same head exactly when both are equal base types, arrows, lists or
tuples. -/
theorem Ty.sameHead_iff {a b : Ty} : a.SameHead b ↔
    (∃ p, a = .prim p ∧ b = .prim p) ∨ (∃ a₁ b₁ a₂ b₂, a = .arrow a₁ b₁ ∧ b = .arrow a₂ b₂) ∨
      (∃ x y, a = .list x ∧ b = .list y) ∨ (∃ xs ys, a = .tuple xs ∧ b = .tuple ys) := by
  cases a <;> cases b <;> simp [Ty.SameHead, eq_comm]

/-- Unifying pairs one after another, from a canonical substitution that mentions only variables
of `E`, ends with the fold of `mergeEquation`, for pairs whose variables are those of `E` and
which are smaller than `E`, given that unifying ends below the measure of `E`. -/
theorem pairsUnifyTo_foldlM {E : Equations}
    (ih : ∀ x y, Prod.Lex (· < ·) (· < ·) (distinctCount (vars [(x, y)]), size [(x, y)])
      (distinctCount E.vars, E.size) → UnifiesTo x y (unify x y)) :
    ∀ (pairs : Equations) (acc : Subst), acc.Canonical → (∀ w, acc.Mentions w → w ∈ E.vars) →
      (∀ w ∈ pairs.vars, w ∈ E.vars) → pairs.size < E.size →
      PairsUnifyTo acc pairs (pairs.foldlM Subst.mergeEquation acc)
  | [], acc, _, _, _, _ => .nil acc
  | (x, y) :: rest, acc, hacc, hm, hvars, hsize => by
    have hxy : ∀ w ∈ x.vars ++ y.vars, w ∈ E.vars := fun w hw =>
      hvars w (by rw [vars_cons]; exact List.mem_append_left _ hw)
    have hfx := hacc.resolved.follows_apply x
    have hfy := hacc.resolved.follows_apply y
    have hu := ih _ _ (measure_apply_lt hacc.resolved hm hxy (by simp at hsize; omega))
    have hmerge : acc.mergeEquation (x, y) =
        (unify (acc.apply x) (acc.apply y)).bind acc.compose := rfl
    rw [List.foldlM_cons, hmerge]
    cases hU : unify (acc.apply x) (acc.apply y) with
    | error e =>
      rw [hU] at hu
      exact .unifyErr hfx hfy hu
    | ok u =>
      rw [hU] at hu
      show PairsUnifyTo acc ((x, y) :: rest)
        (acc.compose u >>= fun acc' => rest.foldlM Subst.mergeEquation acc')
      -- the unifier binds no variable of `acc`: composing it in only adds bindings
      have hc := Subst.composesTo_compose_of_unbound hacc.resolved (sorted_unify hU)
        (hacc.resolved.find?_unify_eq_none hU)
      cases hr : acc.compose u with
      | error e =>
        rw [hr] at hc
        exact .composeErr hfx hfy hu hc
      | ok acc' =>
        rw [hr] at hc
        have hstep : acc.mergeEquation (x, y) = .ok acc' := by rw [hmerge, hU]; exact hr
        obtain ⟨-, -, -, hmen⟩ := Subst.mergeUnifier_spec hacc.resolved hstep
        refine .cons hfx hfy hu hc (pairsUnifyTo_foldlM ih rest acc' (hacc.mergeEquation hstep)
          (fun w hw => ?_) (fun w hw => hvars w (vars_subset_cons _ _ w hw))
          (by simp at hsize; omega))
        rcases hmen w hw with hw | hw | hw
        · exact hm w hw
        · exact Subst.vars_apply_pair_of_mentions hm hxy w (List.mem_append_left _ hw)
        · exact Subst.vars_apply_pair_of_mentions hm hxy w (List.mem_append_right _ hw)

/-- Unifying two types by recursion on their shapes ends, with the result of `unify`. -/
theorem unifiesTo_unify (a b : Ty) : UnifiesTo a b (unify a b) := by
  by_cases ha : ∃ v, a = .var v
  · obtain ⟨v, rfl⟩ := ha
    by_cases hb : b = .var v
    · subst hb
      rw [unify_self]
      exact .refl v
    · rw [unify_var_left hb]
      exact .varLeft hb
  have ha' : ∀ v, a ≠ .var v := fun v h => ha ⟨v, h⟩
  by_cases hb : ∃ v, b = .var v
  · obtain ⟨v, rfl⟩ := hb
    rw [unify_var_right ha']
    exact .varRight ha'
  have hb' : ∀ v, b ≠ .var v := fun v h => hb ⟨v, h⟩
  by_cases hs : a.SameHead b
  · -- the same head: unification goes on inside the two types
    rcases Ty.sameHead_iff.1 hs with ⟨p, rfl, rfl⟩ | ⟨a₁, b₁, a₂, b₂, rfl, rfl⟩ |
      ⟨x, y, rfl, rfl⟩ | ⟨xs, ys, rfl, rfl⟩
    · rw [unify_self]
      exact .prim p
    · rw [unify_arrow]
      have h₁ := unifiesTo_unify a₁ a₂
      cases hu₁ : unify a₁ a₂ with
      | error e =>
        rw [hu₁] at h₁
        exact .arrowDom h₁
      | ok s₁ =>
        rw [hu₁] at h₁
        show UnifiesTo _ _ ((unify (s₁.apply b₁) (s₁.apply b₂)).bind s₁.compose)
        have hs₁ := (Subst.Reachable.unify hu₁).canonical
        have h₂ := unifiesTo_unify (s₁.apply b₁) (s₁.apply b₂)
        cases hu₂ : unify (s₁.apply b₁) (s₁.apply b₂) with
        | error e =>
          rw [hu₂] at h₂
          exact .arrowCod h₁ (hs₁.resolved.follows_apply b₁) (hs₁.resolved.follows_apply b₂) h₂
        | ok s₂ =>
          rw [hu₂] at h₂
          exact .arrow h₁ (hs₁.resolved.follows_apply b₁) (hs₁.resolved.follows_apply b₂) h₂
            (Subst.composesTo_compose_of_unbound hs₁.resolved (sorted_unify hu₂)
              (hs₁.resolved.find?_unify_eq_none hu₂))
    · rw [unify_list]
      exact .list (unifiesTo_unify x y)
    · rw [unify_tuple]
      split
      · next hlen =>
        refine .tuple hlen (pairsUnifyTo_foldlM (E := [(.tuple xs, .tuple ys)])
          (fun x y _ => unifiesTo_unify x y) (xs.zip ys)
          .empty ⟨Subst.sorted_empty, Subst.resolved_empty⟩
          (fun w hw => absurd hw (Subst.not_mentions_empty w)) (fun w hw => ?_) ?_)
        · rcases mem_vars_zip hw with hw | hw <;> simp [hw]
        · have := size_zip_le xs ys
          simp only [size_cons, size_nil, Ty.size]
          omega
      · next hlen => exact .tupleLength hlen
  · rw [unify_clash ha' hb' hs]
    exact .clash ha' hb' hs
termination_by (distinctCount (vars [(a, b)]), size [(a, b)])
decreasing_by
  all_goals subst_vars
  · -- the domains of two arrows: no new variable, and smaller
    refine measure_lt_of_size_lt (fun w hw => ?_) ?_
    · simp only [vars_cons, vars_nil, List.append_nil, List.mem_append, Ty.vars_arrow] at hw ⊢
      tauto
    · simp only [size_cons, size_nil, Ty.size]
      omega
  · -- the ranges, read through the domains' unifier
    refine measure_apply_lt (resolved_unify hu₁) (fun w hw => ?_) (fun w hw => ?_) ?_
    · simp only [vars_cons, vars_nil, List.append_nil, List.mem_append, Ty.vars_arrow]
      rcases mentions_unify hu₁ hw with hw | hw <;> simp [hw]
    · simp only [vars_cons, vars_nil, List.append_nil, List.mem_append, Ty.vars_arrow] at hw ⊢
      tauto
    · simp only [size_cons, size_nil, Ty.size]
      omega
  · -- the elements of two lists
    refine measure_lt_of_size_lt (fun w hw => by simpa using hw) ?_
    simp only [size_cons, size_nil, Ty.size]
    omega
  · assumption

namespace Subst

variable {s : Subst}

/-- Merging a binding into a resolved substitution ends, with the result of `bind`. -/
theorem bindsTo_bind (hs : s.Resolved) (v : Nat) (t : Ty) : BindsTo s v t (s.bind v t) := by
  cases hv : s.find? v with
  | none =>
    rw [bind_of_find?_eq_none hv]
    exact bindsTo_extend hs hv t
  | some e =>
    rw [bind_of_find?_eq_some hv]
    have hu := unifiesTo_unify (s.apply e) (s.apply t)
    cases hU : unify (s.apply e) (s.apply t) with
    | error err =>
      rw [hU] at hu
      exact .overlapErr hv (hs.follows_apply t) (hs.follows_apply e) hu
    | ok u =>
      rw [hU] at hu
      -- the two targets are read through `s`, so their unifier binds nothing `s` binds
      exact .overlap hv (hs.follows_apply t) (hs.follows_apply e) hu
        (composesTo_extendAll hs (sorted_unify hU).nodup_keys (hs.find?_unify_eq_none hU))

/-- Merging bindings one at a time into a resolved substitution ends, with the fold of `bind`. -/
theorem composesTo_bindAll :
    ∀ {s : Subst} (bs : List (Nat × Ty)), s.Resolved →
      ComposesTo s bs (bs.foldlM (fun acc b => acc.bind b.1 b.2) s)
  | s, [], _ => .nil s
  | s, (v, t) :: bs, hs => by
    have hb := bindsTo_bind hs v t
    rw [List.foldlM_cons]
    cases hr : s.bind v t with
    | error e =>
      rw [hr] at hb
      exact .bindErr hb
    | ok s' =>
      rw [hr] at hb
      exact .cons hb (composesTo_bindAll bs (bind_spec hs hr).1)

/-- Composing any substitution into a resolved one ends, with the result of `compose`. -/
theorem composesTo_compose (hs : s.Resolved) (o : Subst) : ComposesTo s o.entries (s.compose o) :=
  composesTo_bindAll o.entries hs

end Subst

/-! ### A finished run has the library's result

The rules leave no choice: each applies to one shape of input, and the results of its premises
fix its own. By recursion on the run, what it ends with is what the library computes. -/

mutual

/-- A finished run of unification ends with the result of `unify`. -/
theorem UnifiesTo.eq_unify {a b : Ty} {r : Except TypeError Subst} :
    UnifiesTo a b r → r = unify a b
  | .prim p => (unify_self _).symm
  | .refl v => (unify_self _).symm
  | .varLeft h => (unify_var_left h).symm
  | .varRight h => (unify_var_right h).symm
  | .arrowDom h₁ => by
    rw [unify_arrow, ← h₁.eq_unify]
    rfl
  | .arrowCod h₁ hf₁ hf₂ h₂ => by
    have hu₁ := h₁.eq_unify.symm
    have hs₁ := resolved_unify hu₁
    rw [unify_arrow_of_ok hu₁, ← (hs₁.follows_iff _ _).1 hf₁, ← (hs₁.follows_iff _ _).1 hf₂,
      ← h₂.eq_unify]
    rfl
  | .arrow h₁ hf₁ hf₂ h₂ hc => by
    have hu₁ := h₁.eq_unify.symm
    have hs₁ := resolved_unify hu₁
    rw [unify_arrow_of_ok hu₁, ← (hs₁.follows_iff _ _).1 hf₁, ← (hs₁.follows_iff _ _).1 hf₂,
      ← h₂.eq_unify]
    exact hc.eq_bindAll hs₁
  | .list h => by rw [unify_list, h.eq_unify]
  | .tuple hlen hp => by rw [unify_tuple, if_pos hlen, hp.eq_foldlM Subst.resolved_empty]
  | .tupleLength h => by rw [unify_tuple, if_neg h]
  | .clash ha hb hs => (unify_clash ha hb hs).symm

/-- A finished run over pairs, from a resolved start, ends with the fold of `mergeEquation`. -/
theorem PairsUnifyTo.eq_foldlM {acc : Subst} {pairs : List (Ty × Ty)}
    {r : Except TypeError Subst} :
    PairsUnifyTo acc pairs r → acc.Resolved → r = pairs.foldlM Subst.mergeEquation acc
  | .nil _, _ => rfl
  | .unifyErr hfx hfy hu, hacc => by
    rw [List.foldlM_cons, hacc.mergeEquation_of_follows hfx hfy, ← hu.eq_unify]
    rfl
  | @PairsUnifyTo.composeErr _ u _ _ _ _ rest _ hfx hfy hu hc, hacc => by
    have hC : _ = acc.compose u := hc.eq_bindAll hacc
    rw [List.foldlM_cons, hacc.mergeEquation_of_follows hfx hfy, ← hu.eq_unify]
    show _ = (acc.compose u).bind fun acc' => rest.foldlM Subst.mergeEquation acc'
    rw [← hC]
    rfl
  | @PairsUnifyTo.cons _ u _ _ _ _ _ rest _ hfx hfy hu hc hp, hacc => by
    have hC : _ = acc.compose u := hc.eq_bindAll hacc
    rw [List.foldlM_cons, hacc.mergeEquation_of_follows hfx hfy, ← hu.eq_unify]
    show _ = (acc.compose u).bind fun acc' => rest.foldlM Subst.mergeEquation acc'
    rw [← hC]
    exact hp.eq_foldlM (hacc.compose hC.symm)

/-- A finished run of composing, from a resolved start, ends with the fold of `bind`. -/
theorem ComposesTo.eq_bindAll {acc : Subst} {bs : List (Nat × Ty)} {r : Except TypeError Subst} :
    ComposesTo acc bs r → acc.Resolved → r = bs.foldlM (fun acc b => acc.bind b.1 b.2) acc
  | .nil _, _ => rfl
  | .bindErr hb, hacc => by
    rw [List.foldlM_cons, ← hb.eq_bind hacc]
    rfl
  | .cons hb hc, hacc => by
    have hb' := hb.eq_bind hacc
    rw [List.foldlM_cons, ← hb']
    exact hc.eq_bindAll (Subst.bind_spec hacc hb'.symm).1

/-- A finished run of merging a binding into a resolved substitution ends with the result of
`bind`. -/
theorem BindsTo.eq_bind {acc : Subst} {v : Nat} {t : Ty} {r : Except TypeError Subst} :
    BindsTo acc v t r → acc.Resolved → r = acc.bind v t
  | .overlapErr hv hft hfe hu, hacc => by
    have hU := hu.eq_unify
    rw [(hacc.follows_iff _ _).1 hft, (hacc.follows_iff _ _).1 hfe] at hU
    rw [Subst.bind_of_find?_eq_some hv, ← hU]
    rfl
  | .overlap hv hft hfe hu hc, hacc => by
    have hU := hu.eq_unify
    rw [(hacc.follows_iff _ _).1 hft, (hacc.follows_iff _ _).1 hfe] at hU
    rw [Subst.bind_of_find?_eq_some hv, ← hU, hc.eq_bindAll hacc]
    exact Subst.bindAll_eq_extendAll (sorted_unify hU.symm).nodup_keys
      (hacc.find?_unify_eq_none hU.symm)
  | .alias hv hft, hacc => by
    rw [Subst.bind_of_find?_eq_none hv, Subst.extend, if_pos ((hacc.follows_iff _ _).1 hft).symm]
  | .occurs hv hft hne hocc, hacc => by
    have ht := (hacc.follows_iff _ _).1 hft
    subst ht
    rw [Subst.bind_of_find?_eq_none hv, Subst.extend, if_neg hne, if_pos hocc]
  | .new hv hft hne hocc _, hacc => by
    have ht := (hacc.follows_iff _ _).1 hft
    subst ht
    rw [Subst.bind_of_find?_eq_none hv, Subst.extend, if_neg hne, if_neg (by simp [hocc])]

end

/-- Unifying two types by recursion on their shapes has exactly one finished run, and it ends
with the result of `unify`. -/
theorem unifiesTo_iff (a b : Ty) (r : Except TypeError Subst) : UnifiesTo a b r ↔ r = unify a b :=
  ⟨UnifiesTo.eq_unify, fun h => h ▸ unifiesTo_unify a b⟩

/-- Composing into a resolved substitution has exactly one finished run, and it ends with the
result of `compose`. -/
theorem Subst.composesTo_iff {s : Subst} (hs : s.Resolved) (o : Subst)
    (r : Except TypeError Subst) : ComposesTo s o.entries r ↔ r = s.compose o :=
  ⟨fun h => h.eq_bindAll hs, fun h => h ▸ composesTo_compose hs o⟩

/-- Unifying, composing and reading through a substitution end. Unifying two types by recursion
on their shapes, mutually with composing, ends for every two types; composing any substitution
into a resolved (idempotent) one ends; reading any type through a resolved substitution by
following chains ends. Each has exactly one finished run, whose result is the library's: `unify`,
`compose` and `apply`. Inference recurses on the expression, the pattern and the program, and on
their lists of arms, components, parts and declarations, and its other calls are of these. Every
substitution a run of expression inference gives, every unifier a run of pattern inference
applies, and every substitution a run of program inference computes (the expressions', the
values', the unifiers of recursive bindings and their compositions) is resolved, whatever the
environment, so every reading through it and every composition into it ends as well. -/
theorem unify_compose_apply_terminate :
    (∀ (a b : Ty) (r : Except TypeError Subst), UnifiesTo a b r ↔ r = unify a b) ∧
      (∀ (s o : Subst) (r : Except TypeError Subst), s.Resolved →
        (ComposesTo s o.entries r ↔ r = s.compose o)) ∧
      (∀ (s : Subst) (t u : Ty), s.Resolved → (Subst.Follows s t u ↔ u = s.apply t)) ∧
      (∀ (order : ComponentOrder) (env : TypeEnv) (e : Expr) (n m : Nat) (s : Subst) (t : Ty),
        (e.infer order env).run n = (.ok (s, t), m) → s.Resolved) ∧
      (∀ (env : TypeEnv) (p : Pattern) (n : Nat) (E : TypeEnv) (S : Subst),
        Pattern.Applies env p n E S → S.Resolved) ∧
      ∀ (order : ComponentOrder) (decls : List Decl) (n : Nat) (s : Subst),
        Decl.ListComputes order TypeEnv.empty decls n s → s.Resolved :=
  ⟨unifiesTo_iff, fun _ o r hs => Subst.composesTo_iff hs o r, fun _ t u hs => hs.follows_iff t u,
    fun _ _ e _ _ _ _ h => (Expr.infer_reachable e h).canonical.resolved,
    fun _ _ _ _ _ h => h.reachable.canonical.resolved,
    fun _ _ _ _ h => h.reachable.canonical.resolved⟩

/-- Composing `0 ↦ int` into the resolved `0 ↦ 't1` meets the bound key `0`: the two targets are
unified and `1 ↦ int` composed in, and the run ends with `0 ↦ int, 1 ↦ int`. -/
theorem compose_overlap_terminates :
    Subst.Resolved ⟨[(0, .var 1)]⟩ ∧
      ComposesTo ⟨[(0, .var 1)]⟩ [(0, .prim .int)] (.ok ⟨[(0, .prim .int), (1, .prim .int)]⟩) :=
  have hs : Subst.Resolved ⟨[(0, .var 1)]⟩ := Subst.resolved_of_singleton (v := 0) (t := .var 1) rfl
  ⟨hs, (unify_compose_apply_terminate.2.1 _ ⟨[(0, .prim .int)]⟩ _ hs).2 (by cbv)⟩

end HindleyMilner
