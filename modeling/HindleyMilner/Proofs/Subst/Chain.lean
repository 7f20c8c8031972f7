import Mathlib
import HindleyMilner.Proofs.MostGeneral
/-!
# Composing a chain of singletons

`Subst.ofBindings bs` composes the singletons of the bindings `bs` one after another, starting
from the empty substitution. Composing merges: a later binding of a variable that is already bound
unifies the two targets, a later target is read through what is bound already, and a binding of
a variable to itself is dropped. So the result does not in general apply the singletons in turn
(`Subst.ofBindings_overlap_not_in_turn`). What holds for every chain is that the result refines
each singleton, so applying it after the singletons in turn changes nothing. When every binding is
new and mentions no variable bound before it (`Subst.FreshChain`), merging is plain sequencing,
and the result is applying the singletons in turn. `Subst.ofBindings_apply_in_turn` states both.
-/

namespace HindleyMilner

namespace Subst

/-- Applies the singletons of `bs` to `t`, one after another. -/
def applyInTurn (bs : List (Nat × Ty)) (t : Ty) : Ty :=
  bs.foldl (fun t b => Subst.apply ⟨[b]⟩ t) t

@[simp] theorem applyInTurn_nil (t : Ty) : applyInTurn [] t = t := rfl

@[simp] theorem applyInTurn_cons (b : Nat × Ty) (bs : List (Nat × Ty)) (t : Ty) :
    applyInTurn (b :: bs) t = applyInTurn bs (Subst.apply ⟨[b]⟩ t) := rfl

/-- One step of `ofBindings`: composing with the next singleton. -/
theorem composeSingleton_eq_ok {acc r : Subst} {b : Nat × Ty} :
    (do acc.compose (← singleton b.1 b.2)) = Except.ok (ε := TypeError) r ↔
      ∃ o, singleton b.1 b.2 = .ok o ∧ acc.compose o = .ok r := by
  cases h : singleton b.1 b.2 with
  | error e =>
    constructor
    · intro h'
      cases h'
    · rintro ⟨o, ho, -⟩
      cases ho
  | ok o =>
    constructor
    · intro h'
      exact ⟨o, rfl, h'⟩
    · rintro ⟨o', ho', h'⟩
      cases ho'
      exact h'

/-- An accepted singleton holds its one binding. -/
theorem eq_of_singleton {v : Nat} {t : Ty} {o : Subst} (h : singleton v t = .ok o) :
    o = ⟨[(v, t)]⟩ := by
  unfold singleton at h
  split at h
  · cases h
  · cases h
    rfl

/-- A resolved substitution binds exactly the variables it moves. -/
theorem Resolved.find?_eq_none_iff {s : Subst} (hs : s.Resolved) {w : Nat} :
    s.find? w = none ↔ s.apply (.var w) = .var w := by
  constructor
  · intro h
    simp [h]
  · intro h
    cases hw : s.find? w with
    | none => rfl
    | some t =>
      -- a target is free of bound variables, so it is not the variable bound to it
      rw [apply_var, hw, Option.getD_some] at h
      subst h
      have := hs w (.var w) hw w (List.mem_singleton_self w)
      rw [hw] at this
      cases this

/-- Composing singletons from a resolved `acc`: the result is resolved, refines `acc` and refines
each singleton. -/
theorem foldlM_composeSingleton_spec :
    ∀ {acc r : Subst} {bs : List (Nat × Ty)}, acc.Resolved →
      bs.foldlM (fun s b => do s.compose (← singleton b.1 b.2)) acc = .ok r →
      r.Resolved ∧ AbsorbsSubst r.image acc ∧ ∀ b ∈ bs, AbsorbsSubst r.image ⟨[b]⟩
  | acc, r, [], hacc, h => by
    cases h
    exact ⟨hacc, hacc.absorbs, by simp⟩
  | acc, r, b :: bs, hacc, h => by
    rw [List.foldlM_cons] at h
    cases hstep : (do acc.compose (← singleton b.1 b.2) : Except TypeError Subst) with
    | error e =>
      rw [hstep] at h
      cases h
    | ok acc' =>
      rw [hstep] at h
      obtain ⟨o, ho, hcomp⟩ := composeSingleton_eq_ok.1 hstep
      obtain ⟨hacc', habs₁, habs₂, -⟩ := compose_spec hacc hcomp
      obtain ⟨hr, habs, hall⟩ := foldlM_composeSingleton_spec hacc' h
      refine ⟨hr, habs.trans habs₁, fun c hc => ?_⟩
      rcases List.mem_cons.1 hc with rfl | hc
      · rw [eq_of_singleton ho] at habs₂
        exact habs.trans habs₂
      · exact hall c hc

/-- Replacing by a function that refines every singleton of `bs` ignores applying them first. -/
theorem substWith_applyInTurn {f : Nat → Ty} :
    ∀ {bs : List (Nat × Ty)}, (∀ b ∈ bs, AbsorbsSubst f ⟨[b]⟩) →
      ∀ t, (applyInTurn bs t).substWith f = t.substWith f
  | [], _, t => rfl
  | b :: bs, h, t => by
    rw [applyInTurn_cons, substWith_applyInTurn (fun c hc => h c (List.mem_cons_of_mem b hc)),
      (h b List.mem_cons_self).apply]

/-- The bindings of a chain are fresh when no binding names, as its variable or inside its target,
a variable that an earlier binding bound. -/
def FreshChain (bs : List (Nat × Ty)) : Prop :=
  bs.Pairwise (fun b c => c.1 ≠ b.1 ∧ b.1 ∉ c.2.vars)

/-- Composing a fresh chain of accepted singletons from a canonical `acc` that binds none of the
chain's variables succeeds, and applies `acc` and then the singletons in turn. -/
theorem foldlM_composeSingleton_of_fresh :
    ∀ {acc : Subst} {bs : List (Nat × Ty)}, acc.Canonical →
      (∀ b ∈ bs, ∃ o, singleton b.1 b.2 = .ok o) → FreshChain bs →
      (∀ b ∈ bs, acc.find? b.1 = none ∧ ∀ w ∈ b.2.vars, acc.find? w = none) →
      ∃ r, bs.foldlM (fun s b => do s.compose (← singleton b.1 b.2)) acc = .ok r ∧
        ∀ t, r.apply t = applyInTurn bs (acc.apply t)
  | acc, [], _, _, _, _ => ⟨acc, rfl, fun _ => rfl⟩
  | acc, b :: bs, hacc, haccepted, hfresh, hfree => by
    obtain ⟨hbs, hfresh'⟩ := List.pairwise_cons.1 hfresh
    obtain ⟨o, ho⟩ := haccepted b List.mem_cons_self
    have hoc : o.Canonical := (Reachable.singleton ho).canonical
    obtain rfl := eq_of_singleton ho
    obtain ⟨hbv, hbt⟩ := hfree b List.mem_cons_self
    have hunbound : ∀ w, acc.find? w = none → w ∉ acc.keys := fun w hw hmem => by
      simpa [hw] using SortedMap.find?_isSome_of_mem_keys hmem
    -- the singleton binds a new variable and its target avoids the keys of `acc`
    obtain ⟨acc', hcomp, happly⟩ := compose_of_disjoint hoc
      (fun k hk => by
        rw [List.mem_singleton.1 hk]
        exact hunbound b.1 hbv)
      (fun k t hkt w hw => by
        cases List.mem_singleton.1 hkt
        exact hunbound w (hbt w hw))
    have hacc' : acc'.Canonical := ⟨Sorted.compose hacc.sorted hcomp, hacc.resolved.compose hcomp⟩
    -- a variable that neither `acc` nor the singleton binds stays unbound
    have hstill : ∀ w, acc.find? w = none → w ≠ b.1 → acc'.find? w = none := by
      intro w hw hwb
      refine (hacc'.resolved.find?_eq_none_iff).2 ?_
      rw [happly, (hacc.resolved.find?_eq_none_iff).1 hw]
      simp [Ne.symm hwb, SortedMap.find?]
    obtain ⟨r, hr, hrapply⟩ := foldlM_composeSingleton_of_fresh hacc'
      (fun c hc => haccepted c (List.mem_cons_of_mem b hc)) hfresh'
      (fun c hc => by
        obtain ⟨hcb, hbc⟩ := hbs c hc
        obtain ⟨hcv, hct⟩ := hfree c (List.mem_cons_of_mem b hc)
        exact ⟨hstill c.1 hcv hcb, fun w hw => hstill w (hct w hw) (fun h => hbc (h ▸ hw))⟩)
    refine ⟨r, ?_, fun t => ?_⟩
    · rw [List.foldlM_cons, composeSingleton_eq_ok.2 ⟨_, ho, hcomp⟩]
      exact hr
    · rw [hrapply, happly, applyInTurn_cons]

/-- Composing a chain of singletons and applying the singletons in turn. Whenever the chain
composes, its composition refines each singleton: applying it after the singletons in turn is
applying it alone. When the singletons are accepted and the chain is fresh, the chain composes,
and its composition applies the singletons in turn. -/
theorem ofBindings_apply_in_turn (bs : List (Nat × Ty)) :
    (∀ r, ofBindings bs = .ok r → ∀ t, r.apply (applyInTurn bs t) = r.apply t) ∧
      ((∀ b ∈ bs, ∃ o, singleton b.1 b.2 = .ok o) → FreshChain bs →
        ∃ r, ofBindings bs = .ok r ∧ ∀ t, r.apply t = applyInTurn bs t) := by
  refine ⟨fun r hr t => ?_, fun haccepted hfresh => ?_⟩
  · obtain ⟨-, -, hall⟩ := foldlM_composeSingleton_spec resolved_empty hr
    rw [apply_eq_substWith, apply_eq_substWith, substWith_applyInTurn hall]
  · obtain ⟨r, hr, happly⟩ := foldlM_composeSingleton_of_fresh
      (Reachable.empty.canonical) haccepted hfresh (fun _ _ => ⟨rfl, fun _ _ => rfl⟩)
    exact ⟨r, hr, fun t => by rw [happly, apply_empty]⟩

/-- The chain `0 ↦ 1 → 2`, `1 ↦ 3 list`, `2 ↦ 3 * bool`, `3 ↦ int`: each binding is new and its
target names only later variables, so its composition applies the four singletons in turn. -/
theorem ofBindings_apply_in_turn_fresh_chain :
    (∀ b ∈ [(0, Ty.arrow (.var 1) (.var 2)), (1, .list (.var 3)), (2, .tuple [.var 3, .bool]),
        (3, .int)], ∃ o, singleton b.1 b.2 = .ok o) ∧
      FreshChain [(0, .arrow (.var 1) (.var 2)), (1, .list (.var 3)),
        (2, .tuple [.var 3, .bool]), (3, .int)] ∧
      ∃ r, ofBindings [(0, .arrow (.var 1) (.var 2)), (1, .list (.var 3)),
          (2, .tuple [.var 3, .bool]), (3, .int)] = .ok r ∧
        ∀ t, r.apply t = applyInTurn [(0, .arrow (.var 1) (.var 2)), (1, .list (.var 3)),
          (2, .tuple [.var 3, .bool]), (3, .int)] t := by
  have haccepted : ∀ b ∈ [(0, Ty.arrow (.var 1) (.var 2)), (1, .list (.var 3)),
      (2, .tuple [.var 3, .bool]), (3, .int)], ∃ o, singleton b.1 b.2 = .ok o := by
    intro b hb
    simp only [List.mem_cons, List.not_mem_nil, or_false] at hb
    rcases hb with rfl | rfl | rfl | rfl <;> exact ⟨_, rfl⟩
  have hfresh : FreshChain [(0, .arrow (.var 1) (.var 2)), (1, .list (.var 3)),
      (2, .tuple [.var 3, .bool]), (3, .int)] := by
    simp [FreshChain, Ty.vars, Ty.varsList]
  exact ⟨haccepted, hfresh, (ofBindings_apply_in_turn _).2 haccepted hfresh⟩

/-- Composing `0 ↦ 1 list` and then `0 ↦ int list` does not apply the two singletons in turn:
the second binding of `0` unifies the two targets and so binds `1` to `int`, while applying the
singletons in turn leaves `1` alone. -/
theorem ofBindings_overlap_not_in_turn :
    (∀ b ∈ [(0, Ty.list (.var 1)), (0, .list .int)], ∃ o, singleton b.1 b.2 = .ok o) ∧
      ¬ ∀ r, ofBindings [(0, .list (.var 1)), (0, .list .int)] = .ok r →
        ∀ t, r.apply t = applyInTurn [(0, .list (.var 1)), (0, .list .int)] t := by
  refine ⟨fun b hb => ?_, fun h => ?_⟩
  · simp only [List.mem_cons, List.not_mem_nil, or_false] at hb
    rcases hb with rfl | rfl <;> exact ⟨_, rfl⟩
  · have hcomp : ofBindings [(0, .list (.var 1)), (0, .list .int)] =
        .ok ⟨[(0, .list .int), (1, .int)]⟩ := by
      cbv
    have := h _ hcomp (.var 1)
    simp [applyInTurn, SortedMap.find?] at this

end Subst

end HindleyMilner
