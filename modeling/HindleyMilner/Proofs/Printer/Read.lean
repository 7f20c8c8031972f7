import Mathlib
import HindleyMilner.Proofs.Printer
/-!
# Reading printed types back

The printer is unambiguous: the text of a type determines the type, up to the names its
variables print as, as long as no tuple in it has one component (such a tuple prints as that
component). This module gives a reader for the printed notation and shows that it inverts the
printer (`Ty.reads_render`).

The reader cannot tell a variable's name from a base type's, so it reads every name as a word:
what it gives back is the `Printed` form of the type, its shape with every variable and base type
replaced by the text it prints as. Two types that print alike have one printed form
(`Ty.toPrinted_eq_of_render_eq`), and where the names are those of variables and tell apart the
variables that meet, one type is a renaming of the other (`Ty.eq_rename_of_toPrinted_eq`).

The reader follows the three binding strengths of the printer: an arrow-level type is a
tuple-level one, possibly followed by ` -> ` and an arrow-level type; a tuple-level type is one or
more components separated by ` * `; a component is a primary followed by ` list` suffixes, and a
primary is `()`, a parenthesized arrow-level type or a name. Each level consumes one unit of fuel,
and the round trip holds for all fuel from some point on (`Reads`).
-/

namespace HindleyMilner

/-- What the text of a printed type shows: names (of variables or base types), arrows, tuples
and list suffixes. -/
inductive Printed where
  /-- A name. -/
  | word (w : List Char)
  /-- An arrow. -/
  | arrow (dom cod : Printed)
  /-- A tuple, empty or with two components or more. -/
  | tuple (items : List Printed)
  /-- A list suffix. -/
  | list (elem : Printed)
  deriving Repr

namespace Ty

mutual
/-- The printed form of a type whose variable `v` prints as `name v`. -/
def toPrinted (name : Nat → String) : Ty → Printed
  | .var v => .word (name v).toList
  | .prim p => .word p.name.toList
  | .arrow a b => .arrow (a.toPrinted name) (b.toPrinted name)
  | .tuple items => .tuple (toPrintedList name items)
  | .list t => .list (t.toPrinted name)
/-- The printed forms of a list of types. -/
def toPrintedList (name : Nat → String) : List Ty → List Printed
  | [] => []
  | t :: ts => t.toPrinted name :: toPrintedList name ts
end

mutual
/-- No tuple in the type has exactly one component. -/
def noUnaryTuple : Ty → Bool
  | .var _ => true
  | .prim _ => true
  | .arrow a b => a.noUnaryTuple && b.noUnaryTuple
  | .tuple items => items.length != 1 && noUnaryTupleList items
  | .list t => t.noUnaryTuple
/-- No tuple in any type of the list has exactly one component. -/
def noUnaryTupleList : List Ty → Bool
  | [] => true
  | t :: ts => t.noUnaryTuple && noUnaryTupleList ts
end

end Ty

/-! ## The reader -/

/-- A character that may stand in a name: anything but a blank or a parenthesis. -/
def IsNameChar (c : Char) : Bool := c != ' ' && c != '(' && c != ')'

/-- A name: a nonempty run of name characters. -/
def IsName (w : List Char) : Prop := w ≠ [] ∧ ∀ c ∈ w, IsNameChar c = true

/-- Reads the ` list` suffixes that follow a component, wrapping it once for each. -/
def readSuffixes (a : Printed) : List Char → Printed × List Char
  | ' ' :: 'l' :: 'i' :: 's' :: 't' :: r => readSuffixes (.list a) r
  | r => (a, r)

/-- What the components read at tuple level show: one component is itself, more are a tuple. -/
def ofItems : List Printed → Printed
  | [a] => a
  | items => .tuple items

mutual
/-- Reads a type at arrow level: a tuple-level type, then possibly ` -> ` and an arrow-level
type. -/
def readArrow : Nat → List Char → Option (Printed × List Char)
  | 0, _ => none
  | n + 1, s => do
    let (a, r) ← readTuple n s
    match r with
    | ' ' :: '-' :: '>' :: ' ' :: r => do
      let (b, r) ← readArrow n r
      pure (.arrow a b, r)
    | r => pure (a, r)
/-- Reads a type at tuple level. -/
def readTuple : Nat → List Char → Option (Printed × List Char)
  | 0, _ => none
  | n + 1, s => (readItems n s).map fun p => (ofItems p.1, p.2)
/-- Reads one or more components separated by ` * `. -/
def readItems : Nat → List Char → Option (List Printed × List Char)
  | 0, _ => none
  | n + 1, s => do
    let (a, r) ← readAtom n s
    match r with
    | ' ' :: '*' :: ' ' :: r => do
      let (items, r) ← readItems n r
      pure (a :: items, r)
    | r => pure ([a], r)
/-- Reads a component: a primary and its ` list` suffixes. -/
def readAtom : Nat → List Char → Option (Printed × List Char)
  | 0, _ => none
  | n + 1, s => (readPrimary n s).map fun p => readSuffixes p.1 p.2
/-- Reads a primary: `()`, a parenthesized arrow-level type or a name. -/
def readPrimary : Nat → List Char → Option (Printed × List Char)
  | 0, _ => none
  | _ + 1, [] => none
  | n + 1, c :: s =>
    if c = '(' then
      match s with
      | ')' :: r => some (.tuple [], r)
      | s => do
        let (a, r) ← readArrow n s
        match r with
        | ')' :: r => some (a, r)
        | _ => none
    else
      let w := (c :: s).takeWhile IsNameChar
      if w.isEmpty then none else some (.word w, (c :: s).dropWhile IsNameChar)
end

/-- `read` gives `x` on the text `s` once it has enough fuel. -/
def Reads {α : Type} (read : Nat → List Char → Option α) (s : List Char) (x : α) : Prop :=
  ∃ N, ∀ n, N ≤ n → read n s = some x

/-- What may follow a type printed at arrow level: the end of the text or a closing
parenthesis. -/
def EndsArrow (r : List Char) : Prop := r = [] ∨ ∃ r', r = ')' :: r'

/-- What may follow a type printed at tuple level: also ` -> `. -/
def EndsTuple (r : List Char) : Prop := EndsArrow r ∨ ∃ r', r = ' ' :: '-' :: '>' :: ' ' :: r'

/-- What may follow a component: also ` * `. -/
def EndsAtom (r : List Char) : Prop := EndsTuple r ∨ ∃ r', r = ' ' :: '*' :: ' ' :: r'

/-- What may follow the primary of a component: also ` list`. -/
def EndsPrimary (r : List Char) : Prop :=
  EndsAtom r ∨ ∃ r', r = ' ' :: 'l' :: 'i' :: 's' :: 't' :: r'

section Reads

variable {α : Type} {read : Nat → List Char → Option α} {s r r' : List Char} {x y : α}
  {a b p : Printed} {items : List Printed}

/-- The reader gives one result. -/
theorem Reads.unique (h : Reads read s x) (h' : Reads read s y) : x = y := by
  obtain ⟨N, hN⟩ := h
  obtain ⟨N', hN'⟩ := h'
  exact Option.some.inj ((hN (N + N') (by omega)).symm.trans (hN' (N + N') (by omega)))

/-- A reader that gives `x` from fuel `N + 1` on reads `x`. -/
theorem Reads.of_succ (N : Nat) (h : ∀ m, N ≤ m → read (m + 1) s = some x) : Reads read s x :=
  ⟨N + 1, fun n hn => by
    obtain ⟨m, rfl⟩ : ∃ m, n = m + 1 := ⟨n - 1, by omega⟩
    exact h m (by omega)⟩

@[simp] theorem readSuffixes_list (a : Printed) (r : List Char) :
    readSuffixes a (' ' :: 'l' :: 'i' :: 's' :: 't' :: r) = readSuffixes (.list a) r := by
  simp [readSuffixes]

/-- No suffix is read where a component ends. -/
theorem readSuffixes_of_endsAtom (hr : EndsAtom r) : readSuffixes a r = (a, r) := by
  rcases hr with ((rfl | ⟨r', rfl⟩) | ⟨r', rfl⟩) | ⟨r', rfl⟩ <;> simp [readSuffixes]

/-- Text that is empty or starts with `)` holds no type. -/
theorem readArrow_eq_none (hs : s = [] ∨ ∃ s', s = ')' :: s') (n : Nat) : readArrow n s = none := by
  -- no primary starts there, so no level above it reads anything either
  have hprimary : ∀ n, readPrimary n s = none := by
    intro n
    rcases hs with rfl | ⟨s', rfl⟩ <;> rcases n with _ | n <;> simp [readPrimary, IsNameChar]
  have hatom : ∀ n, readAtom n s = none := by
    intro n
    cases n <;> simp [readAtom, hprimary]
  have hitems : ∀ n, readItems n s = none := by
    intro n
    cases n <;> simp [readItems, hatom]
  rcases n with _ | _ | n <;> simp [readArrow, readTuple, hitems]

/-- A name followed by the end of a primary is read as a word. -/
theorem readAtom_name {w : List Char} (hw : IsName w) (hr : EndsPrimary r) :
    Reads readAtom (w ++ r) (readSuffixes (.word w) r) := by
  obtain ⟨c, cs, rfl⟩ := List.exists_cons_of_ne_nil hw.1
  have hc : c ≠ '(' := by
    have := hw.2 c List.mem_cons_self
    intro h
    simp [h, IsNameChar] at this
  -- the name stops where the text after it starts
  have hstop : r.takeWhile IsNameChar = [] ∧ r.dropWhile IsNameChar = r := by
    rcases hr with (((rfl | ⟨r', rfl⟩) | ⟨r', rfl⟩) | ⟨r', rfl⟩) | ⟨r', rfl⟩ <;>
      simp [IsNameChar]
  refine Reads.of_succ 1 fun m hm => ?_
  obtain ⟨k, rfl⟩ : ∃ k, m = k + 1 := ⟨m - 1, by omega⟩
  simp only [readAtom, List.cons_append, readPrimary, hc, if_false]
  rw [← List.cons_append, List.takeWhile_append_of_pos hw.2,
    List.dropWhile_append_of_pos hw.2, hstop.1, hstop.2]
  simp

/-- The empty tuple is read as a primary. -/
theorem readAtom_unit : Reads readAtom ('(' :: ')' :: r) (readSuffixes (.tuple []) r) :=
  Reads.of_succ 1 fun m hm => by
    obtain ⟨k, rfl⟩ : ∃ k, m = k + 1 := ⟨m - 1, by omega⟩
    simp [readAtom, readPrimary]

/-- A parenthesized arrow-level type is read as a primary. -/
theorem readAtom_paren (h : Reads readArrow s (a, ')' :: r)) :
    Reads readAtom ('(' :: s) (readSuffixes a r) := by
  obtain ⟨N, hN⟩ := h
  -- the text inside the parentheses holds a type, so it does not start with `)`
  obtain ⟨c, cs, rfl, hc⟩ : ∃ c cs, s = c :: cs ∧ c ≠ ')' := by
    have hread := hN N le_rfl
    rcases s with _ | ⟨c, cs⟩
    · rw [readArrow_eq_none (Or.inl rfl)] at hread
      exact absurd hread (by simp)
    · refine ⟨c, cs, rfl, fun hc => ?_⟩
      rw [hc, readArrow_eq_none (Or.inr ⟨cs, rfl⟩)] at hread
      exact absurd hread (by simp)
  refine Reads.of_succ (N + 1) fun m hm => ?_
  obtain ⟨k, rfl⟩ : ∃ k, m = k + 1 := ⟨m - 1, by omega⟩
  simp only [readAtom, readPrimary, if_true]
  split
  · rename_i r' heq
    exact absurd (List.cons.inj heq).1 hc
  · simp [hN k (by omega)]

/-- One component followed by the end of a tuple is read as a single item. -/
theorem readItems_one (h : Reads readAtom s (a, r)) (hr : EndsTuple r) :
    Reads readItems s ([a], r) := by
  obtain ⟨N, hN⟩ := h
  refine Reads.of_succ N fun m hm => ?_
  rcases hr with (rfl | ⟨r', rfl⟩) | ⟨r', rfl⟩ <;> simp [readItems, hN m hm]

/-- A component followed by ` * ` and more components is read as the first item. -/
theorem readItems_cons (h : Reads readAtom s (a, ' ' :: '*' :: ' ' :: r'))
    (h' : Reads readItems r' (items, r)) : Reads readItems s (a :: items, r) := by
  obtain ⟨N, hN⟩ := h
  obtain ⟨N', hN'⟩ := h'
  refine Reads.of_succ (N + N') fun m hm => ?_
  simp [readItems, hN m (by omega), hN' m (by omega)]

/-- The items read at tuple level show what `ofItems` makes of them. -/
theorem readTuple_items (h : Reads readItems s (items, r)) : Reads readTuple s (ofItems items, r) := by
  obtain ⟨N, hN⟩ := h
  exact Reads.of_succ N fun m hm => by simp [readTuple, hN m hm]

/-- A tuple-level type followed by the end of an arrow-level type is read at arrow level. -/
theorem readArrow_tuple (h : Reads readTuple s (a, r)) (hr : EndsArrow r) :
    Reads readArrow s (a, r) := by
  obtain ⟨N, hN⟩ := h
  refine Reads.of_succ N fun m hm => ?_
  rcases hr with rfl | ⟨r', rfl⟩ <;> simp [readArrow, hN m hm]

/-- A tuple-level type, ` -> ` and an arrow-level type are read as an arrow. -/
theorem readArrow_arrow (h : Reads readTuple s (a, ' ' :: '-' :: '>' :: ' ' :: r'))
    (h' : Reads readArrow r' (b, r)) : Reads readArrow s (.arrow a b, r) := by
  obtain ⟨N, hN⟩ := h
  obtain ⟨N', hN'⟩ := h'
  refine Reads.of_succ (N + N') fun m hm => ?_
  simp [readArrow, hN m (by omega), hN' m (by omega)]

/-- What is read as a component, wherever a primary may end, is read at the tuple and arrow
levels too, wherever those may end. -/
theorem reads_of_readAtom (h : ∀ r, EndsPrimary r → Reads readAtom (s ++ r) (readSuffixes p r)) :
    (∀ r, EndsTuple r → Reads readTuple (s ++ r) (p, r)) ∧
      ∀ r, EndsArrow r → Reads readArrow (s ++ r) (p, r) := by
  have htuple : ∀ r, EndsTuple r → Reads readTuple (s ++ r) (p, r) := by
    intro r hr
    have hatom := h r (Or.inl (Or.inl hr))
    rw [readSuffixes_of_endsAtom (Or.inl hr)] at hatom
    exact readTuple_items (readItems_one hatom hr)
  exact ⟨htuple, fun r hr => readArrow_tuple (htuple r (Or.inl hr)) hr⟩

end Reads

/-! ## Reading the printer's text -/

namespace Ty

variable {name : Nat → String}

@[simp] theorem toList_parenthesize (wrap : Bool) (s : String) :
    (parenthesize wrap s).toList = if wrap then '(' :: s.toList ++ [')'] else s.toList := by
  cases wrap <;> simp [parenthesize]

/-- A type printed at tuple level, other than a tuple of two components or more, prints as a
component. -/
theorem render_tuple_eq_atom {t : Ty} (h : ∀ items, t = .tuple items → items.length ≤ 1)
    (hu : t.noUnaryTuple = true) : t.render name .tuple = t.render name .atom := by
  cases t with
  | tuple items =>
    rcases items with _ | ⟨u, _ | ⟨v, rest⟩⟩
    · simp [render]
    · simp [noUnaryTuple] at hu
    · simpa using h _ rfl
  | _ => simp [render, Prec.rank]

/-- A type printed at arrow level, other than an arrow, prints as at tuple level. -/
theorem render_arrow_eq_tuple {t : Ty} (h : ∀ a b, t ≠ .arrow a b) :
    t.render name .arrow = t.render name .tuple := by
  cases t with
  | arrow a b => exact absurd rfl (h a b)
  | _ => simp [render, Prec.rank]

section Render

variable (hname : ∀ v, IsName (name v).toList)
include hname

/-- The printer's text is read back as the printed form: at component level wherever a primary
may end (the suffixes that follow are read too), at tuple level wherever a tuple-level type may
end, and at arrow level wherever an arrow-level type may end. -/
theorem reads_render : ∀ t : Ty, t.noUnaryTuple = true →
    (∀ r, EndsPrimary r →
      Reads readAtom ((t.render name .atom).toList ++ r) (readSuffixes (t.toPrinted name) r)) ∧
    (∀ r, EndsTuple r → Reads readTuple ((t.render name .tuple).toList ++ r) (t.toPrinted name, r)) ∧
    (∀ r, EndsArrow r → Reads readArrow ((t.render name .arrow).toList ++ r) (t.toPrinted name, r))
  | .var v, _ => by
    have hatom := fun r (hr : EndsPrimary r) => readAtom_name (hname v) hr
    exact ⟨hatom, reads_of_readAtom hatom⟩
  | .prim q, _ => by
    have hq : IsName q.name.toList := by cases q <;> simp [IsName, Prim.name, IsNameChar]
    have hatom := fun r (hr : EndsPrimary r) => readAtom_name hq hr
    exact ⟨hatom, reads_of_readAtom hatom⟩
  | .list e, hu => by
    have hsame : ∀ p, ((Ty.list e).render name p).toList =
        (e.render name .atom).toList ++ [' ', 'l', 'i', 's', 't'] := by
      intro p; simp [render]
    -- the suffix of `e list` is read after the primary of `e`
    have hatom : ∀ r, EndsPrimary r → Reads readAtom
        (((e.render name .atom).toList ++ [' ', 'l', 'i', 's', 't']) ++ r)
        (readSuffixes (.list (e.toPrinted name)) r) := by
      intro r _
      have := (reads_render e (by simpa [noUnaryTuple] using hu)).1 _ (Or.inr ⟨r, rfl⟩)
      rw [readSuffixes_list] at this
      simpa using this
    simp only [hsame]
    exact ⟨hatom, reads_of_readAtom hatom⟩
  | .tuple [], _ => by
    have hsame : ∀ p, (Ty.tuple []).render name p = "()" := by intro p; simp [render]
    simp only [hsame]
    have hatom : ∀ r, EndsPrimary r → Reads readAtom ("()".toList ++ r)
        (readSuffixes (.tuple []) r) := fun r _ => readAtom_unit
    exact ⟨hatom, reads_of_readAtom hatom⟩
  | .tuple [_], hu => by simp [noUnaryTuple] at hu
  | .tuple (u :: v :: rest), hu => by
    have hitems := readsList_render (u :: v :: rest) (by simp) (by simp_all [noUnaryTuple])
    have hbody : (Ty.tuple (u :: v :: rest)).render name .tuple =
        " * ".intercalate (renderList name (u :: v :: rest)) := by
      simp [render, Prec.rank, parenthesize]
    have hshow : toPrinted name (.tuple (u :: v :: rest)) =
        ofItems (toPrintedList name (u :: v :: rest)) := by
      simp [toPrinted, toPrintedList, ofItems]
    have htuple : ∀ r, EndsTuple r → Reads readTuple
        (((Ty.tuple (u :: v :: rest)).render name .tuple).toList ++ r)
        (toPrinted name (.tuple (u :: v :: rest)), r) := by
      intro r hr
      rw [hbody, hshow]
      exact readTuple_items (hitems r hr)
    have harrow : ∀ r, EndsArrow r → Reads readArrow
        (((Ty.tuple (u :: v :: rest)).render name .arrow).toList ++ r)
        (toPrinted name (.tuple (u :: v :: rest)), r) := by
      intro r hr
      rw [render_arrow_eq_tuple (by simp)]
      exact readArrow_tuple (htuple r (Or.inl hr)) hr
    -- as a component the tuple is parenthesized
    refine ⟨fun r _ => ?_, htuple, harrow⟩
    have hparen : ((Ty.tuple (u :: v :: rest)).render name .atom).toList ++ r =
        '(' :: (((Ty.tuple (u :: v :: rest)).render name .arrow).toList ++ ')' :: r) := by
      simp [render, Prec.rank, parenthesize]
    rw [hparen]
    exact readAtom_paren (harrow _ (Or.inr ⟨r, rfl⟩))
  | .arrow a b, hu => by
    have ha := reads_render a (by simp_all [noUnaryTuple])
    have hb := reads_render b (by simp_all [noUnaryTuple])
    have harrow : ∀ r, EndsArrow r → Reads readArrow
        (((Ty.arrow a b).render name .arrow).toList ++ r) (toPrinted name (.arrow a b), r) := by
      intro r hr
      have hsplit : ((Ty.arrow a b).render name .arrow).toList ++ r =
          (a.render name .tuple).toList ++
            ' ' :: '-' :: '>' :: ' ' :: ((b.render name .arrow).toList ++ r) := by
        simp [render, Prec.rank]
      rw [hsplit]
      exact readArrow_arrow (ha.2.1 _ (Or.inr ⟨_, rfl⟩)) (hb.2.2 r hr)
    -- as a component, and at tuple level, the arrow is parenthesized
    have hatom : ∀ r, EndsPrimary r → Reads readAtom
        (((Ty.arrow a b).render name .atom).toList ++ r)
        (readSuffixes (toPrinted name (.arrow a b)) r) := by
      intro r _
      have hparen : ((Ty.arrow a b).render name .atom).toList ++ r =
          '(' :: (((Ty.arrow a b).render name .arrow).toList ++ ')' :: r) := by
        simp [render, Prec.rank, parenthesize]
      rw [hparen]
      exact readAtom_paren (harrow _ (Or.inr ⟨r, rfl⟩))
    refine ⟨hatom, ?_, harrow⟩
    rw [render_tuple_eq_atom (by simp) hu]
    exact (reads_of_readAtom hatom).1
where
  /-- The components of a tuple, separated by ` * `, are read as its items. -/
  readsList_render : ∀ ts : List Ty, ts ≠ [] → noUnaryTupleList ts = true →
      ∀ r, EndsTuple r → Reads readItems
        ((" * ".intercalate (renderList name ts)).toList ++ r) (toPrintedList name ts, r)
    | [], hne, _, _, _ => absurd rfl hne
    | [t], _, hu, r, hr => by
      have ht := (reads_render t (by simp_all [noUnaryTupleList])).1 r (Or.inl (Or.inl hr))
      rw [readSuffixes_of_endsAtom (Or.inl hr)] at ht
      simpa [renderList, toPrintedList] using readItems_one ht hr
    | t :: u :: ts, _, hu, r, hr => by
      have ht := (reads_render t (by simp_all [noUnaryTupleList])).1
        (' ' :: '*' :: ' ' :: ((" * ".intercalate (renderList name (u :: ts))).toList ++ r))
        (Or.inl (Or.inr ⟨_, rfl⟩))
      rw [readSuffixes_of_endsAtom (Or.inr ⟨_, rfl⟩)] at ht
      have hrest := readsList_render (u :: ts) (by simp) (by simp_all [noUnaryTupleList]) r hr
      have hsplit : (" * ".intercalate (renderList name (t :: u :: ts))).toList ++ r =
          (t.render name .atom).toList ++ ' ' :: '*' :: ' ' ::
            ((" * ".intercalate (renderList name (u :: ts))).toList ++ r) := by
        simp [renderList, String.toList_intercalate]
      rw [hsplit]
      simpa [toPrintedList] using readItems_cons ht hrest

end Render

/-- Two types that print alike, with names made of name characters, have one printed form. -/
theorem toPrinted_eq_of_render_eq {name₁ name₂ : Nat → String} {t₁ t₂ : Ty}
    (h₁ : ∀ v, IsName (name₁ v).toList) (h₂ : ∀ v, IsName (name₂ v).toList)
    (ht₁ : t₁.noUnaryTuple = true) (ht₂ : t₂.noUnaryTuple = true)
    (h : t₁.render name₁ .arrow = t₂.render name₂ .arrow) :
    t₁.toPrinted name₁ = t₂.toPrinted name₂ := by
  have hread₁ := (reads_render h₁ t₁ ht₁).2.2 [] (Or.inl rfl)
  have hread₂ := (reads_render h₂ t₂ ht₂).2.2 [] (Or.inl rfl)
  rw [h] at hread₁
  exact congrArg Prod.fst (hread₁.unique hread₂)

/-- The name of a base type does not start with a quote. -/
theorem head_prim_name (q : Prim) : q.name.toList.head? ≠ some '\'' := by
  cases q <;> simp [Prim.name]

/-- Where every name starts with a quote, so that no variable prints as a base type, two types
with one printed form are renamings of each other: the second is the first renamed by any `ρ`
that sends each variable to the variable printed with the same name at the same place, and `ρ`
keeps the names of the first type's variables. -/
theorem eq_rename_of_toPrinted_eq {name₁ name₂ : Nat → String} {ρ : Nat → Nat}
    (h₁ : ∀ v, (name₁ v).toList.head? = some '\'') (h₂ : ∀ v, (name₂ v).toList.head? = some '\'') :
    ∀ t₁ t₂ : Ty, t₁.toPrinted name₁ = t₂.toPrinted name₂ →
      (∀ v ∈ t₁.vars, ∀ w ∈ t₂.vars, name₁ v = name₂ w → w = ρ v) →
      t₂ = t₁.rename ρ ∧ ∀ v ∈ t₁.vars, name₂ (ρ v) = name₁ v
  | .var v, t₂, h, hρ => by
    rcases t₂ with w | q | _ | _ | _
    · have hname : name₁ v = name₂ w := String.toList_inj.1 (by simpa [toPrinted] using h)
      obtain rfl := hρ v (by simp) w (by simp) hname
      simp [rename_eq, substWith, hname]
    · have hname : (name₁ v).toList = q.name.toList := by simpa [toPrinted] using h
      exact absurd (hname ▸ h₁ v) (head_prim_name q)
    all_goals simp [toPrinted] at h
  | .prim p, t₂, h, _ => by
    rcases t₂ with w | q | _ | _ | _
    · have hname : p.name.toList = (name₂ w).toList := by simpa [toPrinted] using h
      exact absurd (hname ▸ h₂ w) (head_prim_name p)
    · have hpq : p = q := by
        simp only [toPrinted, Printed.word.injEq] at h
        cases p <;> cases q <;> simp_all [Prim.name]
      simp [hpq, rename_eq, substWith]
    all_goals simp [toPrinted] at h
  | .arrow a b, t₂, h, hρ => by
    rcases t₂ with _ | _ | ⟨c, d⟩ | _ | _ <;> simp only [toPrinted, reduceCtorEq] at h
    simp only [Printed.arrow.injEq] at h
    obtain ⟨hc, ha⟩ := eq_rename_of_toPrinted_eq h₁ h₂ a c h.1
      (fun v hv w hw => hρ v (by simp [hv]) w (by simp [hw]))
    obtain ⟨hd, hb⟩ := eq_rename_of_toPrinted_eq h₁ h₂ b d h.2
      (fun v hv w hw => hρ v (by simp [hv]) w (by simp [hw]))
    refine ⟨by rw [hc, hd]; rfl, fun v hv => ?_⟩
    rcases List.mem_append.1 (vars_arrow a b ▸ hv) with hv | hv
    exacts [ha v hv, hb v hv]
  | .tuple xs, t₂, h, hρ => by
    rcases t₂ with _ | _ | _ | ys | _ <;> simp only [toPrinted, reduceCtorEq] at h
    simp only [Printed.tuple.injEq] at h
    obtain ⟨hys, hxs⟩ := eq_rename_of_toPrintedList_eq h₁ h₂ xs ys h
      (fun v hv w hw => hρ v (by simpa using hv) w (by simpa using hw))
    exact ⟨by rw [hys]; rfl, fun v hv => hxs v (by simpa using hv)⟩
  | .list e, t₂, h, hρ => by
    rcases t₂ with _ | _ | _ | _ | e' <;> simp only [toPrinted, reduceCtorEq] at h
    simp only [Printed.list.injEq] at h
    obtain ⟨he', he⟩ := eq_rename_of_toPrinted_eq h₁ h₂ e e' h
      (fun v hv w hw => hρ v (by simpa using hv) w (by simpa using hw))
    exact ⟨by rw [he']; rfl, fun v hv => he v (by simpa using hv)⟩
where
  /-- The list form of `eq_rename_of_toPrinted_eq`. -/
  eq_rename_of_toPrintedList_eq {name₁ name₂ : Nat → String} {ρ : Nat → Nat}
      (h₁ : ∀ v, (name₁ v).toList.head? = some '\'')
      (h₂ : ∀ v, (name₂ v).toList.head? = some '\'') :
      ∀ ts₁ ts₂ : List Ty, toPrintedList name₁ ts₁ = toPrintedList name₂ ts₂ →
        (∀ v ∈ varsList ts₁, ∀ w ∈ varsList ts₂, name₁ v = name₂ w → w = ρ v) →
        ts₂ = substWithList (fun v => .var (ρ v)) ts₁ ∧ ∀ v ∈ varsList ts₁, name₂ (ρ v) = name₁ v
    | [], [], _, _ => ⟨rfl, by simp [varsList]⟩
    | [], _ :: _, h, _ => by simp [toPrintedList] at h
    | _ :: _, [], h, _ => by simp [toPrintedList] at h
    | t₁ :: ts₁, t₂ :: ts₂, h, hρ => by
      simp only [toPrintedList, List.cons.injEq] at h
      obtain ⟨ht, hnames⟩ := eq_rename_of_toPrinted_eq h₁ h₂ t₁ t₂ h.1
        (fun v hv w hw => hρ v (by simp [hv]) w (by simp [hw]))
      obtain ⟨hts, hnames'⟩ := eq_rename_of_toPrintedList_eq h₁ h₂ ts₁ ts₂ h.2
        (fun v hv w hw => hρ v (by simp [hv]) w (by simp [hw]))
      refine ⟨by rw [ht, hts]; rfl, fun v hv => ?_⟩
      rcases List.mem_append.1 (varsList_cons t₁ ts₁ ▸ hv) with hv | hv
      exacts [hnames v hv, hnames' v hv]

end Ty

end HindleyMilner
