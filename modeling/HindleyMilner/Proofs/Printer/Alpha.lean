import Mathlib
import HindleyMilner.Proofs.Printer.Read
/-!
# Schemes that print alike

A scheme prints its quantified variables as letters, in the order in which they first occur in
its body, and every other variable under its plain name `'tN`. Renaming the quantified variables
by a bijection, without capturing a free variable, does not change the text
(`Scheme.pretty_eq_of_alphaEquiv`). Conversely the text determines the scheme up to such a
renaming (`Scheme.alphaEquiv_of_pretty_eq`), provided that no tuple has one component and that no
letter can be mistaken for a plain name. The letters run `'a` to `'z`, then `'a1` to `'z1`, and
so on, so the 46th letter is `'t1`, the plain name of the variable `1`: the converse needs each
scheme to letter at most 45 variables, or both schemes to be closed (`Scheme.LettersApart`).
Together: `Scheme.pretty_eq_iff_alphaEquiv`.

The converse reads the two texts back (`Ty.toPrinted_eq_of_render_eq`) and matches the variables
of the two bodies by their names (`Scheme.varName_eq_varName_iff`).
-/

namespace HindleyMilner

/-! ## Letter names -/

/-- The character `a` moved on by `k < 26` letters. -/
theorem toNat_letter {k : Nat} (hk : k < 26) : (Char.ofNat (97 + k)).toNat = 97 + k := by
  rw [Char.toNat_ofNat]
  simp only [Nat.isValidChar, ite_eq_left_iff]
  omega

theorem toList_letterName (i : Nat) : (letterName i).toList =
    Char.ofNat (97 + i % 26) :: (if i / 26 = 0 then [] else Nat.toDigits 10 (i / 26)) := by
  unfold letterName
  split <;> simp [Nat.toList_repr]

/-- Different places get different letter names. -/
theorem letterName_injective : Function.Injective letterName := by
  intro i j h
  rw [← String.toList_inj, toList_letterName, toList_letterName, List.cons.injEq] at h
  obtain ⟨hletter, hsuffix⟩ := h
  have hmod : i % 26 = j % 26 := by
    have := congrArg Char.toNat hletter
    rw [toNat_letter (Nat.mod_lt _ (by omega)), toNat_letter (Nat.mod_lt _ (by omega))] at this
    omega
  -- the suffix is empty exactly for the first 26 places, and digits are read back otherwise
  have hdiv : i / 26 = j / 26 := by
    split at hsuffix <;> split at hsuffix
    · omega
    · exact absurd hsuffix.symm Nat.toDigits_ne_nil
    · exact absurd hsuffix Nat.toDigits_ne_nil
    · rw [← Nat.toList_repr, ← Nat.toList_repr, String.toList_inj] at hsuffix
      exact Nat.repr_inj.1 hsuffix
  omega

/-- The first 45 letter names are no plain name: those are `t` and digits, and the first letter
name of that form is the 46th, `t1`. -/
theorem letterName_ne_plain {i : Nat} (hi : i < 45) (w : Nat) : letterName i ≠ "t" ++ toString w := by
  intro h
  rw [← String.toList_inj, toList_letterName, String.toList_append] at h
  have hne : (toString w).toList ≠ [] := by
    rw [show toString w = Nat.repr w from rfl, Nat.toList_repr]
    exact Nat.toDigits_ne_nil
  obtain ⟨d, ds, hds⟩ := List.exists_cons_of_ne_nil hne
  simp only [hds, show "t".toList = ['t'] from rfl, List.singleton_append, List.cons.injEq] at h
  have hletter := congrArg Char.toNat h.1
  rw [toNat_letter (Nat.mod_lt _ (by omega))] at hletter
  have ht : 't'.toNat = 116 := rfl
  -- the letter is `t` only at place 19, which has no suffix
  have hi19 : i = 19 := by omega
  subst hi19
  simp at h

/-- A digit may stand in a name. -/
theorem isNameChar_of_isDigit {c : Char} (hc : c.isDigit = true) : IsNameChar c = true := by
  simp only [Char.isDigit, Bool.and_eq_true, decide_eq_true_eq] at hc
  have h₁ : c ≠ ' ' := fun h => by subst h; exact absurd hc.1 (by decide)
  have h₂ : c ≠ '(' := fun h => by subst h; exact absurd hc.1 (by decide)
  have h₃ : c ≠ ')' := fun h => by subst h; exact absurd hc.1 (by decide)
  simp [IsNameChar, h₁, h₂, h₃]

/-- The plain name of a variable is a name. -/
theorem isName_quote_plain (w : Nat) : ∀ c ∈ (Ty.varName w).toList, IsNameChar c = true := by
  intro c hc
  rw [Ty.varName, String.toList_append, show toString w = Nat.repr w from rfl,
    Nat.toList_repr] at hc
  rcases List.mem_append.1 hc with hc | hc
  · simp only [show "'t".toList = ['\'', 't'] from rfl, List.mem_cons, List.not_mem_nil,
      or_false] at hc
    rcases hc with rfl | rfl <;> rfl
  · exact isNameChar_of_isDigit (Nat.isDigit_of_mem_toDigits (by omega) (by omega) hc)

/-- A letter name, quoted, is a name. -/
theorem isName_quote_letter (i : Nat) : ∀ c ∈ ("'" ++ letterName i).toList, IsNameChar c = true := by
  intro c hc
  rw [String.toList_append, toList_letterName] at hc
  rcases List.mem_append.1 hc with hc | hc
  · simp only [show "'".toList = ['\''] from rfl, List.mem_singleton] at hc
    subst hc; rfl
  rcases List.mem_cons.1 hc with rfl | hc
  · have hk := toNat_letter (Nat.mod_lt i (show 26 > 0 by omega))
    have h₁ : Char.ofNat (97 + i % 26) ≠ ' ' := fun h => by
      rw [h] at hk; exact absurd hk (by simp; omega)
    have h₂ : Char.ofNat (97 + i % 26) ≠ '(' := fun h => by
      rw [h] at hk; exact absurd hk (by simp; omega)
    have h₃ : Char.ofNat (97 + i % 26) ≠ ')' := fun h => by
      rw [h] at hk; exact absurd hk (by simp; omega)
    simp [IsNameChar, h₁, h₂, h₃]
  · split at hc
    · simp at hc
    · exact isNameChar_of_isDigit (Nat.isDigit_of_mem_toDigits (by omega) (by omega) hc)

namespace Scheme

/-! ## How a scheme names its variables -/

/-- A lettered variable prints as its letter. -/
theorem varName_of_idxOf?_eq_some {σ : Scheme} {v i : Nat} (h : σ.namedVars.idxOf? v = some i) :
    σ.varName v = "'" ++ letterName i := by
  simp [varName, h]

/-- Any other variable prints under its plain name. -/
theorem varName_of_idxOf?_eq_none {σ : Scheme} {v : Nat} (h : σ.namedVars.idxOf? v = none) :
    σ.varName v = Ty.varName v := by
  simp [varName, h]

/-- The lettered variables are the quantified variables of the body. -/
theorem mem_namedVars {σ : Scheme} {v : Nat} : v ∈ σ.namedVars ↔ v ∈ σ.ty.vars ∧ v ∈ σ.vars := by
  simp [namedVars, Ty.varsInOrder, List.mem_eraseDups]

/-- Every name a scheme gives is a name of the printed notation. -/
theorem isName_varName (σ : Scheme) (v : Nat) : IsName (σ.varName v).toList := by
  cases h : σ.namedVars.idxOf? v with
  | some i =>
    rw [varName_of_idxOf?_eq_some h]
    exact ⟨by simp, isName_quote_letter i⟩
  | none =>
    rw [varName_of_idxOf?_eq_none h]
    exact ⟨by simp [Ty.varName], isName_quote_plain v⟩

/-- Every name a scheme gives starts with a quote. -/
theorem head_varName (σ : Scheme) (v : Nat) : (σ.varName v).toList.head? = some '\'' := by
  cases h : σ.namedVars.idxOf? v with
  | some i => simp [varName_of_idxOf?_eq_some h]
  | none => simp [varName_of_idxOf?_eq_none h, Ty.varName]

/-- The letters of two schemes cannot be mistaken for plain names: each letters at most 45
variables, or both are closed. -/
def LettersApart (σ₁ σ₂ : Scheme) : Prop :=
  (σ₁.namedVars.length ≤ 45 ∧ σ₂.namedVars.length ≤ 45) ∨ (σ₁.Closed ∧ σ₂.Closed)

theorem LettersApart.symm {σ₁ σ₂ : Scheme} (h : σ₁.LettersApart σ₂) : σ₂.LettersApart σ₁ :=
  h.imp And.symm And.symm

/-- A closed scheme letters every variable of its body. -/
theorem Closed.idxOf?_ne_none {σ : Scheme} (hc : σ.Closed) {v : Nat} (hv : v ∈ σ.ty.vars) :
    σ.namedVars.idxOf? v ≠ none := fun h =>
  List.idxOf?_eq_none_iff.1 h (mem_namedVars.2 ⟨hv, hc v hv⟩)

/-- Where letters and plain names stay apart, a variable printed plainly in one scheme and one
lettered in the other print differently. -/
theorem LettersApart.letter_ne_plain {σ₁ σ₂ : Scheme} (hsep : σ₁.LettersApart σ₂) {v w j : Nat}
    (hv : v ∈ σ₁.ty.vars) (hv₁ : σ₁.namedVars.idxOf? v = none)
    (hw₂ : σ₂.namedVars.idxOf? w = some j) : "'" ++ letterName j ≠ Ty.varName v := by
  rcases hsep with ⟨-, hlen₂⟩ | ⟨hc₁, -⟩
  · have hj : j < σ₂.namedVars.length := (List.idxOf?_eq_some_iff.1 hw₂).1
    rw [Ty.varName, show "'t" = "'" ++ "t" from rfl, String.append_assoc, Ne,
      String.append_right_inj]
    exact letterName_ne_plain (by omega) v
  · exact absurd hv₁ (hc₁.idxOf?_ne_none hv)

/-- Where letters and plain names stay apart, two variables of the bodies print alike exactly
when both are lettered at the same place, or both print plainly and are the same variable. -/
theorem varName_eq_varName_iff {σ₁ σ₂ : Scheme} (hsep : σ₁.LettersApart σ₂) {v w : Nat}
    (hv : v ∈ σ₁.ty.vars) (hw : w ∈ σ₂.ty.vars) :
    σ₁.varName v = σ₂.varName w ↔
      σ₁.namedVars.idxOf? v = σ₂.namedVars.idxOf? w ∧ (σ₁.namedVars.idxOf? v = none → v = w) := by
  rcases h₁ : σ₁.namedVars.idxOf? v with _ | i <;> rcases h₂ : σ₂.namedVars.idxOf? w with _ | j
  · rw [varName_of_idxOf?_eq_none h₁, varName_of_idxOf?_eq_none h₂, Ty.varName, Ty.varName,
      String.append_right_inj, show toString v = Nat.repr v from rfl,
      show toString w = Nat.repr w from rfl, Nat.repr_inj]
    simp
  · rw [varName_of_idxOf?_eq_none h₁, varName_of_idxOf?_eq_some h₂]
    simpa using (hsep.letter_ne_plain hv h₁ h₂).symm
  · rw [varName_of_idxOf?_eq_some h₁, varName_of_idxOf?_eq_none h₂]
    simpa using hsep.symm.letter_ne_plain hw h₂ h₁
  · rw [varName_of_idxOf?_eq_some h₁, varName_of_idxOf?_eq_some h₂, String.append_right_inj,
      letterName_injective.eq_iff]
    simp

/-! ## Alpha-equivalence -/

/-- `σ₂` is `σ₁` with its quantified variables renamed: a bijection `ρ` between the quantified
variables that occur in the two bodies turns the first body into the second while every other
variable stays, and none of those is quantified in `σ₂`. -/
def AlphaEquiv (σ₁ σ₂ : Scheme) : Prop :=
  ∃ ρ : Nat → Nat,
    Set.BijOn ρ {v | v ∈ σ₁.ty.vars ∧ v ∈ σ₁.vars} {v | v ∈ σ₂.ty.vars ∧ v ∈ σ₂.vars} ∧
    σ₂.ty = σ₁.ty.rename (fun v => if v ∈ σ₁.vars then ρ v else v) ∧
    ∀ v ∈ σ₁.ty.vars, v ∉ σ₁.vars → v ∉ σ₂.vars

/-- Alpha-equivalent schemes print alike: the renaming keeps each variable's place among the
lettered ones and leaves the others, which stay unquantified, under their plain names. -/
theorem pretty_eq_of_alphaEquiv {σ₁ σ₂ : Scheme} (h : σ₁.AlphaEquiv σ₂) : σ₁.pretty = σ₂.pretty := by
  obtain ⟨ρ, hbij, hty, hfree⟩ := h
  obtain ⟨ρ', hρ'⟩ : ∃ ρ' : Nat → Nat, ρ' = fun v => if v ∈ σ₁.vars then ρ v else v := ⟨_, rfl⟩
  rw [← hρ'] at hty
  -- the renaming keeps whether a variable of the body is quantified
  have hquant : ∀ v ∈ σ₁.ty.vars, (ρ' v ∈ σ₂.vars ↔ v ∈ σ₁.vars) := by
    intro v hv
    by_cases hq : v ∈ σ₁.vars
    · simpa [hρ', hq] using (hbij.mapsTo ⟨hv, hq⟩).2
    · simpa [hρ', hq] using hfree v hv hq
  have hinj : Set.InjOn ρ' {v | v ∈ σ₁.ty.vars} := by
    intro v hv v' hv' heq
    have hq : v ∈ σ₁.vars ↔ v' ∈ σ₁.vars := (hquant v hv).symm.trans (heq ▸ hquant v' hv')
    by_cases hq₁ : v ∈ σ₁.vars
    · have hq₂ := hq.1 hq₁
      simp only [hρ', hq₁, hq₂, if_true] at heq
      exact hbij.injOn ⟨hv, hq₁⟩ ⟨hv', hq₂⟩ heq
    · have hq₂ : v' ∉ σ₁.vars := fun h => hq₁ (hq.2 h)
      simpa [hρ', hq₁, hq₂] using heq
  -- so the lettered variables of `σ₂` are those of `σ₁`, renamed, in the same order
  have hnamed : σ₂.namedVars = σ₁.namedVars.map ρ' := by
    rw [namedVars, namedVars, hty, Ty.varsInOrder, Ty.varsInOrder, Ty.vars_rename,
      eraseDups_map_of_injOn _ hinj, List.filter_map]
    congr 1
    refine List.filter_congr fun v hv => ?_
    simp [hquant v (List.mem_eraseDups.1 hv)]
  have hname : ∀ v ∈ σ₁.ty.vars, σ₂.varName (ρ' v) = σ₁.varName v := by
    intro v hv
    have hidx : σ₂.namedVars.idxOf? (ρ' v) = σ₁.namedVars.idxOf? v := by
      rw [hnamed]
      refine idxOf?_map_of_injOn _ (hinj.mono fun x hx => ?_)
      rcases hx with rfl | hx
      exacts [hv, (mem_namedVars.1 hx).1]
    cases hi : σ₁.namedVars.idxOf? v with
    | some i => rw [varName_of_idxOf?_eq_some hi, varName_of_idxOf?_eq_some (hidx.trans hi)]
    | none =>
      -- an unlettered variable of the body is not quantified, so it is not renamed
      have hq : v ∉ σ₁.vars := fun hq => List.idxOf?_eq_none_iff.1 hi (mem_namedVars.2 ⟨hv, hq⟩)
      have hkeep : ρ' v = v := by simp [hρ', hq]
      rw [varName_of_idxOf?_eq_none hi, varName_of_idxOf?_eq_none (hidx.trans hi), hkeep]
  rw [pretty, pretty, hty, Ty.render_rename]
  exact Ty.render_congr .arrow σ₁.ty fun v hv => (hname v hv).symm

/-- Schemes without one-element tuples whose letters stay apart from plain names, and which
print alike, are alpha-equivalent: the variables printed with the same name at the same places
are matched, a lettered variable with the one of the same letter and a plain one with itself. -/
theorem alphaEquiv_of_pretty_eq {σ₁ σ₂ : Scheme} (hu₁ : σ₁.ty.noUnaryTuple = true)
    (hu₂ : σ₂.ty.noUnaryTuple = true) (hsep : σ₁.LettersApart σ₂) (h : σ₁.pretty = σ₂.pretty) :
    σ₁.AlphaEquiv σ₂ := by
  obtain ⟨ρ, hρ⟩ : ∃ ρ : Nat → Nat,
      ρ = fun v => ((σ₁.namedVars.idxOf? v).map fun i => σ₂.namedVars.getD i 0).getD v := ⟨_, rfl⟩
  have hplain : ∀ v, σ₁.namedVars.idxOf? v = none → ρ v = v := by
    intro v hi; simp [hρ, hi]
  have hprinted := Ty.toPrinted_eq_of_render_eq (isName_varName σ₁) (isName_varName σ₂) hu₁ hu₂ h
  -- variables printed alike are matched by `ρ`
  have hmatch : ∀ v ∈ σ₁.ty.vars, ∀ w ∈ σ₂.ty.vars, σ₁.varName v = σ₂.varName w → w = ρ v := by
    intro v hv w hw hname
    obtain ⟨hidx, hsame⟩ := (varName_eq_varName_iff hsep hv hw).1 hname
    cases hi : σ₁.namedVars.idxOf? v with
    | none => rw [hplain v hi, hsame hi]
    | some i =>
      obtain ⟨hlt, hget, -⟩ := List.idxOf?_eq_some_iff.1 (hidx ▸ hi)
      simp [hρ, hi, List.getElem?_eq_getElem hlt, hget]
  obtain ⟨hty, hnames⟩ := Ty.eq_rename_of_toPrinted_eq (head_varName σ₁) (head_varName σ₂) _ _
    hprinted hmatch
  -- each variable of the first body and its image print alike, so they have the same letter
  have hcode : ∀ v ∈ σ₁.ty.vars, σ₁.namedVars.idxOf? v = σ₂.namedVars.idxOf? (ρ v) ∧
      (σ₁.namedVars.idxOf? v = none → v = ρ v) := by
    intro v hv
    refine (varName_eq_varName_iff hsep hv ?_).1 (hnames v hv).symm
    rw [hty, Ty.vars_rename]
    exact List.mem_map_of_mem hv
  have hlettered : ∀ v ∈ σ₁.ty.vars, (v ∈ σ₁.namedVars ↔ ρ v ∈ σ₂.namedVars) := by
    intro v hv
    rw [← List.idxOf?_eq_none_iff.not_left, ← List.idxOf?_eq_none_iff.not_left, (hcode v hv).1]
  refine ⟨ρ, ⟨fun v hv => ?_, fun v hv v' hv' heq => ?_, fun w hw => ?_⟩, ?_, fun v hv hq => ?_⟩
  · -- a quantified variable goes to a quantified variable
    exact mem_namedVars.1 ((hlettered v hv.1).1 (mem_namedVars.2 hv))
  · -- two quantified variables with one image have one letter
    obtain ⟨i, hi⟩ := Option.ne_none_iff_exists'.1
      (List.idxOf?_eq_none_iff.not.2 (not_not.2 (mem_namedVars.2 hv)))
    have hi' : σ₁.namedVars.idxOf? v' = some i := by
      rw [(hcode v' hv'.1).1, ← heq, ← (hcode v hv.1).1, hi]
    obtain ⟨hlt, hget, -⟩ := List.idxOf?_eq_some_iff.1 hi
    obtain ⟨hlt', hget', -⟩ := List.idxOf?_eq_some_iff.1 hi'
    exact hget.symm.trans hget'
  · -- a quantified variable of the second body is the image of one of the first
    have hw' : w ∈ (σ₁.ty.rename ρ).vars := hty ▸ hw.1
    rw [Ty.vars_rename] at hw'
    obtain ⟨v, hv, rfl⟩ := List.mem_map.1 hw'
    exact ⟨v, mem_namedVars.1 ((hlettered v hv).2 (mem_namedVars.2 hw)), rfl⟩
  · rw [hty, Ty.rename_eq, Ty.rename_eq]
    refine Ty.substWith_congr _ fun v hv => ?_
    by_cases hq : v ∈ σ₁.vars
    · simp [hq]
    · have hi : σ₁.namedVars.idxOf? v = none :=
        List.idxOf?_eq_none_iff.2 fun h => hq (mem_namedVars.1 h).2
      simp [hq, hplain v hi]
  · -- a free variable stays, printed plainly, so it is not quantified in `σ₂` either
    have hi : σ₁.namedVars.idxOf? v = none :=
      List.idxOf?_eq_none_iff.2 fun h => hq (mem_namedVars.1 h).2
    have hv₂ : v ∈ σ₂.ty.vars := by
      have hmem := List.mem_map_of_mem (f := ρ) hv
      rwa [← Ty.vars_rename, ← hty, ← (hcode v hv).2 hi] at hmem
    intro hq₂
    have hlet := (hlettered v hv).2
    rw [← (hcode v hv).2 hi] at hlet
    exact List.idxOf?_eq_none_iff.1 hi (hlet (mem_namedVars.2 ⟨hv₂, hq₂⟩))

/-- The scheme printer identifies exactly the alpha-equivalent schemes, among schemes with no
one-element tuple whose letters cannot be mistaken for plain names. -/
theorem pretty_eq_iff_alphaEquiv {σ₁ σ₂ : Scheme} (hu₁ : σ₁.ty.noUnaryTuple = true)
    (hu₂ : σ₂.ty.noUnaryTuple = true) (hsep : σ₁.LettersApart σ₂) :
    σ₁.pretty = σ₂.pretty ↔ σ₁.AlphaEquiv σ₂ :=
  ⟨alphaEquiv_of_pretty_eq hu₁ hu₂ hsep, pretty_eq_of_alphaEquiv⟩

/-- `∀ 'a 'b. 'b -> 'a * 't7`, numbered two ways: the hypotheses hold, so the schemes print alike
exactly when they are alpha-equivalent. -/
theorem pretty_eq_iff_alphaEquiv_renumbered :
    (⟨[3, 5], .arrow (.var 5) (.tuple [.var 3, .var 7])⟩ : Scheme).ty.noUnaryTuple = true ∧
      (⟨[0, 1], .arrow (.var 1) (.tuple [.var 0, .var 7])⟩ : Scheme).ty.noUnaryTuple = true ∧
      LettersApart ⟨[3, 5], .arrow (.var 5) (.tuple [.var 3, .var 7])⟩
        ⟨[0, 1], .arrow (.var 1) (.tuple [.var 0, .var 7])⟩ ∧
      ((⟨[3, 5], .arrow (.var 5) (.tuple [.var 3, .var 7])⟩ : Scheme).pretty =
          (⟨[0, 1], .arrow (.var 1) (.tuple [.var 0, .var 7])⟩ : Scheme).pretty ↔
        AlphaEquiv ⟨[3, 5], .arrow (.var 5) (.tuple [.var 3, .var 7])⟩
          ⟨[0, 1], .arrow (.var 1) (.tuple [.var 0, .var 7])⟩) := by
  have hu₁ : (⟨[3, 5], .arrow (.var 5) (.tuple [.var 3, .var 7])⟩ : Scheme).ty.noUnaryTuple =
      true := by decide
  have hu₂ : (⟨[0, 1], .arrow (.var 1) (.tuple [.var 0, .var 7])⟩ : Scheme).ty.noUnaryTuple =
      true := by decide
  have hsep : LettersApart ⟨[3, 5], .arrow (.var 5) (.tuple [.var 3, .var 7])⟩
      ⟨[0, 1], .arrow (.var 1) (.tuple [.var 0, .var 7])⟩ := Or.inl ⟨by decide, by decide⟩
  exact ⟨hu₁, hu₂, hsep, pretty_eq_iff_alphaEquiv hu₁ hu₂ hsep⟩

/-- Without its side conditions the correspondence fails both ways. With 46 lettered variables
the last letter is `'t1`, the plain name of the free variable `1`: quantifying `145` or leaving
`1` free in the last place prints alike, though no bijection of the quantified variables that
keeps the free ones turns one body into the other. And renaming the quantified `0` of
`'t0 * 't1` to `1` captures the free `1`: `'a * 't1` becomes `'a * 'a`. -/
theorem pretty_eq_iff_renaming_fails :
    (¬ ∀ σ₁ σ₂ : Scheme, σ₁.ty.noUnaryTuple = true → σ₂.ty.noUnaryTuple = true →
        σ₁.pretty = σ₂.pretty → ∃ ρ : Nat → Nat,
          Set.BijOn ρ {v | v ∈ σ₁.ty.vars ∧ v ∈ σ₁.vars} {v | v ∈ σ₂.ty.vars ∧ v ∈ σ₂.vars} ∧
          σ₂.ty = σ₁.ty.rename (fun v => if v ∈ σ₁.vars then ρ v else v)) ∧
      ¬ ∀ σ₁ σ₂ : Scheme, (∃ ρ : Nat → Nat,
          Set.BijOn ρ {v | v ∈ σ₁.ty.vars ∧ v ∈ σ₁.vars} {v | v ∈ σ₂.ty.vars ∧ v ∈ σ₂.vars} ∧
          σ₂.ty = σ₁.ty.rename (fun v => if v ∈ σ₁.vars then ρ v else v)) →
        σ₁.pretty = σ₂.pretty := by
  constructor
  · intro h
    obtain ⟨ρ, -, hty⟩ := h ⟨List.range' 100 46, .tuple ((List.range' 100 46).map .var ++ [.var 1])⟩
      ⟨List.range' 100 46, .tuple ((List.range' 100 46).map .var ++ [.var 145])⟩
      (by rfl) (by rfl) (by rfl)
    -- the last variable is `145` on one side and the free `1`, kept, on the other
    have hlast := congrArg (fun t => t.vars.getLast?) hty
    have h₁ : (Ty.tuple ((List.range' 100 46).map .var ++ [.var 145])).vars.getLast? = some 145 :=
      rfl
    have h₂ : (Ty.tuple ((List.range' 100 46).map .var ++ [.var 1])).vars.getLast? = some 1 := rfl
    have hfree : (1 : Nat) ∉ List.range' 100 46 := by decide
    simp only [Ty.vars_rename, List.getLast?_map, h₁, h₂, Option.map_some, hfree, if_false,
      Option.some.injEq] at hlast
    omega
  · intro h
    have hbij : Set.BijOn (fun _ => 1) {v | v ∈ (Ty.tuple [.var 0, .var 1]).vars ∧ v ∈ [0]}
        {v | v ∈ (Ty.tuple [.var 1, .var 1]).vars ∧ v ∈ [1]} := by
      refine ⟨fun v hv => by simp, fun v hv v' hv' _ => ?_, fun w hw => ⟨0, by simp_all⟩⟩
      simp only [Set.mem_ofPred_eq, List.mem_singleton] at hv hv'
      rw [hv.2, hv'.2]
    have hpretty := h ⟨[0], .tuple [.var 0, .var 1]⟩ ⟨[1], .tuple [.var 1, .var 1]⟩
      ⟨fun _ => 1, hbij, by decide⟩
    exact absurd hpretty (by decide)

end Scheme

end HindleyMilner
