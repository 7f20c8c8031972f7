/-!
# Finite maps in key order

A finite map kept as a list of entries in ascending key order, each key once. Substitutions and
type environments are such maps; keeping them sorted makes equal maps equal values, fixes the
order in which a substitution's bindings are folded, and gives environments their printed order.

The operations below never reorder entries and replace an entry in place, so they keep the list
sorted and free of repeated keys; look-ups are specified without relying on either.
-/

namespace HindleyMilner

/-- A finite map from `κ` to `α`, as its entries in ascending key order. -/
structure SortedMap (κ : Type) (α : Type) where
  /-- The entries, in ascending key order. -/
  entries : List (κ × α)
  deriving DecidableEq, Repr

namespace SortedMap

variable {κ α : Type}

/-- The map with no entries. -/
def empty : SortedMap κ α := ⟨[]⟩
instance : EmptyCollection (SortedMap κ α) := ⟨empty⟩

/-- The number of entries. -/
def size (m : SortedMap κ α) : Nat := m.entries.length

/-- Whether the map has no entries. -/
def isEmpty (m : SortedMap κ α) : Bool := m.entries.isEmpty

/-- The keys, ascending. -/
def keys (m : SortedMap κ α) : List κ := m.entries.map (·.1)

/-- Keeps the entries that satisfy `p`. -/
def filter (p : κ → α → Bool) (m : SortedMap κ α) : SortedMap κ α :=
  ⟨m.entries.filter (fun e => p e.1 e.2)⟩

/-- Applies `f` to every value. -/
def mapValues {β : Type} (f : α → β) (m : SortedMap κ α) : SortedMap κ β :=
  ⟨m.entries.map (fun e => (e.1, f e.2))⟩

section Lookup

variable [DecidableEq κ]

/-- The value stored under `k`, if any. -/
def find? (m : SortedMap κ α) (k : κ) : Option α :=
  (m.entries.find? (fun e => e.1 = k)).map (·.2)

/-- Whether `k` has an entry. -/
def contains (m : SortedMap κ α) (k : κ) : Bool := (m.find? k).isSome

/-- Removes the entry of `k`, if any. -/
def erase (m : SortedMap κ α) (k : κ) : SortedMap κ α := m.filter (fun j _ => j ≠ k)

@[simp] theorem find?_empty (k : κ) : (empty : SortedMap κ α).find? k = none := rfl

/-- Keeping the entries whose key passes `q` keeps the look-ups of those keys. -/
theorem find?_filter_key (q : κ → Bool) (m : SortedMap κ α) (j : κ) :
    (m.filter (fun k _ => q k)).find? j = if q j then m.find? j else none := by
  obtain ⟨l⟩ := m
  simp only [find?, filter]
  induction l with
  | nil => simp
  | cons e rest ih =>
    by_cases hq : q e.1 = true
    · rw [List.filter_cons_of_pos (p := fun x : κ × α => q x.1) hq]
      by_cases hej : e.1 = j
      · subst hej
        rw [List.find?_cons_of_pos (by simp), List.find?_cons_of_pos (by simp), if_pos hq]
      · rw [List.find?_cons_of_neg (by simpa using hej), List.find?_cons_of_neg (by simpa using hej),
          ih]
    · rw [List.filter_cons_of_neg (p := fun x : κ × α => q x.1) hq, ih]
      by_cases hej : e.1 = j
      · subst hej
        rw [if_neg hq, if_neg hq]
      · rw [List.find?_cons_of_neg (by simpa using hej)]

/-- After erasing `k`, `k` has no entry and every other key keeps its value. -/
@[simp] theorem find?_erase (m : SortedMap κ α) (k j : κ) :
    (m.erase k).find? j = if j = k then none else m.find? j := by
  have h := find?_filter_key (fun i => decide (i ≠ k)) m j
  simp only [erase] at h ⊢
  rw [h]
  by_cases hj : j = k <;> simp [hj]

/-- Mapping the values maps every look-up. -/
@[simp] theorem find?_mapValues {β : Type} (f : α → β) (m : SortedMap κ α) (k : κ) :
    (m.mapValues f).find? k = (m.find? k).map f := by
  obtain ⟨l⟩ := m
  simp only [find?, mapValues]
  induction l with
  | nil => simp
  | cons e rest ih =>
    rw [List.map_cons]
    by_cases hek : e.1 = k
    · rw [List.find?_cons_of_pos (by simp [hek]), List.find?_cons_of_pos (by simp [hek])]
      rfl
    · rw [List.find?_cons_of_neg (by simpa using hek), List.find?_cons_of_neg (by simpa using hek),
        ih]

end Lookup

section Keyed

variable [DecidableEq κ] [LT κ] [∀ a b : κ, Decidable (a < b)]

/-- Puts `(k, v)` into an ascending list of entries: it replaces the entry of `k`, or goes
before the first larger key. -/
def insertEntry (k : κ) (v : α) : List (κ × α) → List (κ × α)
  | [] => [(k, v)]
  | e :: rest =>
    if e.1 = k then (k, v) :: rest
    else if k < e.1 then (k, v) :: e :: rest
    else e :: insertEntry k v rest

/-- Maps `k` to `v`, replacing an entry of `k`. -/
def insert (m : SortedMap κ α) (k : κ) (v : α) : SortedMap κ α := ⟨insertEntry k v m.entries⟩

/-- The map of the given entries; of two entries with the same key the later wins. -/
def ofList (l : List (κ × α)) : SortedMap κ α := l.foldl (fun m e => m.insert e.1 e.2) empty


theorem find?_insertEntry (k j : κ) (v : α) :
    ∀ l : List (κ × α), ((insertEntry k v l).find? (fun e => e.1 = j)).map (·.2) =
      if k = j then some v else (l.find? (fun e => e.1 = j)).map (·.2)
  | [] => by by_cases h : k = j <;> simp [insertEntry, h]
  | e :: rest => by
    by_cases he : e.1 = k
    · rw [insertEntry, if_pos he]
      by_cases h : k = j
      · subst h; simp
      · have : ¬ e.1 = j := fun hj => h (he ▸ hj)
        simp [h, this]
    · by_cases hlt : k < e.1
      · rw [insertEntry, if_neg he, if_pos hlt]
        by_cases h : k = j
        · subst h; simp
        · simp [h]
      · rw [insertEntry, if_neg he, if_neg hlt]
        have ih := find?_insertEntry k j v rest
        by_cases hej : e.1 = j
        · have : ¬ k = j := fun h => he (hej.trans h.symm)
          simp [hej, this]
        · simp [hej, ih]

@[simp] theorem find?_insert (m : SortedMap κ α) (k j : κ) (v : α) :
    (m.insert k v).find? j = if k = j then some v else m.find? j :=
  find?_insertEntry k j v m.entries

end Keyed

end SortedMap

end HindleyMilner
