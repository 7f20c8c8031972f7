import HindleyMilner.SortedMap
/-!
# Sorted maps

A map is *sorted* when its entries stand in strictly ascending key order (`SortedMap.Sorted`).
Every map the library builds is sorted: the empty map is, and `insert`, `erase`, `filter` and
`mapValues` keep it (`Sorted.insert`, `Sorted.filter`, `Sorted.mapValues`). A sorted map holds each
key once (`Sorted.nodup_keys`), so that `insert` replaces the only entry of its key.

Besides, this module gives the keys after each operation, and two laws that hold of every map:
inserting twice under one key keeps the second value (`insert_insert`), and erasing a key after
inserting it erases the insertion (`erase_insert`).
-/

namespace HindleyMilner

namespace SortedMap

variable {κ α : Type}

/-- The entries of `m` stand in strictly ascending order of their keys. -/
def Sorted [LT κ] (m : SortedMap κ α) : Prop := m.entries.Pairwise (fun a b => a.1 < b.1)

@[simp] theorem keys_mk (l : List (κ × α)) : keys ⟨l⟩ = l.map (·.1) := rfl

theorem sorted_empty [LT κ] : (empty : SortedMap κ α).Sorted := List.Pairwise.nil

theorem Sorted.filter [LT κ] {m : SortedMap κ α} (h : m.Sorted) (p : κ → α → Bool) :
    (m.filter p).Sorted :=
  List.Pairwise.filter _ h

theorem Sorted.mapValues [LT κ] {β : Type} {m : SortedMap κ α} (h : m.Sorted) (f : α → β) :
    (m.mapValues f).Sorted :=
  List.pairwise_map.2 h

theorem mem_entries_mapValues {β : Type} {m : SortedMap κ α} {f : α → β} {e : κ × β}
    (h : e ∈ (m.mapValues f).entries) : ∃ a, (e.1, a) ∈ m.entries ∧ e.2 = f a := by
  obtain ⟨x, hx, rfl⟩ := List.mem_map.1 h
  exact ⟨x.2, hx, rfl⟩

@[simp] theorem keys_mapValues {β : Type} (m : SortedMap κ α) (f : α → β) :
    (m.mapValues f).keys = m.keys := by
  simp [keys, mapValues, Function.comp_def]

section Lookup

variable [DecidableEq κ]

theorem Sorted.erase [LT κ] {m : SortedMap κ α} (h : m.Sorted) (k : κ) : (m.erase k).Sorted :=
  h.filter _

/-- A look-up finds an entry of the map. -/
theorem mem_entries_of_find? {m : SortedMap κ α} {k : κ} {a : α} (h : m.find? k = some a) :
    (k, a) ∈ m.entries := by
  obtain ⟨l⟩ := m
  simp only [find?, Option.map_eq_some_iff] at h
  obtain ⟨e, he, rfl⟩ := h
  have hk : e.1 = k := by simpa using List.find?_some he
  rw [← hk]
  exact List.mem_of_find?_eq_some he

/-- A key of the map has a value. -/
theorem find?_isSome_of_mem_keys {m : SortedMap κ α} {k : κ} (h : k ∈ m.keys) :
    ∃ a, m.find? k = some a := by
  obtain ⟨l⟩ := m
  simp only [keys_mk, List.mem_map] at h
  obtain ⟨e, he, rfl⟩ := h
  cases hf : l.find? (fun x => decide (x.1 = e.1)) with
  | none => exact absurd (List.find?_eq_none.1 hf e he) (by simp)
  | some x => exact ⟨x.2, by simp [find?, hf]⟩

/-- A key that is not in the map has no value. -/
theorem find?_eq_none_of_not_mem_keys {m : SortedMap κ α} {k : κ} (h : k ∉ m.keys) :
    m.find? k = none := by
  cases hf : m.find? k with
  | none => rfl
  | some a =>
    exact absurd (List.mem_map.2 ⟨(k, a), mem_entries_of_find? hf, rfl⟩) h

/-- The entries after erasing `k`: those of other keys. -/
theorem mem_entries_erase {m : SortedMap κ α} {k : κ} {e : κ × α} :
    e ∈ (m.erase k).entries ↔ e ∈ m.entries ∧ e.1 ≠ k := by
  simp [erase, filter]

/-- Mapping the values commutes with erasing. -/
theorem mapValues_erase {β : Type} (m : SortedMap κ α) (f : α → β) (k : κ) :
    (m.erase k).mapValues f = (m.mapValues f).erase k := by
  simp [erase, filter, mapValues, List.filter_map, Function.comp_def]

section Keyed

variable [LT κ] [∀ a b : κ, Decidable (a < b)]

/-- `insertEntry` puts in the new entry. -/
theorem mem_insertEntry_self (k : κ) (v : α) : ∀ l : List (κ × α), (k, v) ∈ insertEntry k v l
  | [] => by simp [insertEntry]
  | e :: rest => by
    unfold insertEntry
    split
    · exact List.mem_cons_self
    · split
      · exact List.mem_cons_self
      · exact List.mem_cons_of_mem _ (mem_insertEntry_self k v rest)

/-- `insertEntry` keeps the entries of the other keys. -/
theorem mem_insertEntry_of_ne {k : κ} {v : α} {e : κ × α} (hk : e.1 ≠ k) :
    ∀ {l : List (κ × α)}, e ∈ l → e ∈ insertEntry k v l
  | x :: rest, h => by
    unfold insertEntry
    split
    · rename_i hx
      rcases List.mem_cons.1 h with rfl | h
      · exact absurd hx hk
      · exact List.mem_cons_of_mem _ h
    · split
      · exact List.mem_cons_of_mem _ h
      · rcases List.mem_cons.1 h with rfl | h
        · exact List.mem_cons_self
        · exact List.mem_cons_of_mem _ (mem_insertEntry_of_ne hk h)

/-- The keys after `insertEntry`: the new key and the old ones. -/
theorem mem_keys_insertEntry (k j : κ) (v : α) :
    ∀ l : List (κ × α), j ∈ (insertEntry k v l).map (·.1) ↔ j = k ∨ j ∈ l.map (·.1)
  | [] => by simp [insertEntry]
  | e :: rest => by
    unfold insertEntry
    split
    · rename_i he
      simp only [List.map_cons, List.mem_cons]
      constructor
      · rintro (h | h)
        · exact Or.inl h
        · exact Or.inr (Or.inr h)
      · rintro (h | h | h)
        · exact Or.inl h
        · exact Or.inl (h.trans he)
        · exact Or.inr h
    · split
      · simp only [List.map_cons, List.mem_cons]
      · simp only [List.map_cons, List.mem_cons, mem_keys_insertEntry k j v rest]
        constructor
        · rintro (h | h | h)
          · exact Or.inr (Or.inl h)
          · exact Or.inl h
          · exact Or.inr (Or.inr h)
        · rintro (h | h | h)
          · exact Or.inr (Or.inl h)
          · exact Or.inl h
          · exact Or.inr (Or.inr h)

@[simp] theorem mem_keys_insert (m : SortedMap κ α) (k j : κ) (v : α) :
    j ∈ (m.insert k v).keys ↔ j = k ∨ j ∈ m.keys :=
  mem_keys_insertEntry k j v m.entries

/-- An entry after `insertEntry` is the new one or an old one. -/
theorem mem_insertEntry {k : κ} {v : α} {e : κ × α} :
    ∀ {l : List (κ × α)}, e ∈ insertEntry k v l → e = (k, v) ∨ e ∈ l
  | [], h => by simpa [insertEntry] using h
  | x :: rest, h => by
    unfold insertEntry at h
    split at h
    · rcases List.mem_cons.1 h with h | h
      · exact Or.inl h
      · exact Or.inr (List.mem_cons_of_mem _ h)
    · split at h
      · rcases List.mem_cons.1 h with h | h
        · exact Or.inl h
        · exact Or.inr h
      · rcases List.mem_cons.1 h with h | h
        · exact Or.inr (h ▸ List.mem_cons_self)
        · rcases mem_insertEntry h with h | h
          · exact Or.inl h
          · exact Or.inr (List.mem_cons_of_mem _ h)

theorem mem_entries_insert {m : SortedMap κ α} {k : κ} {v : α} {e : κ × α}
    (h : e ∈ (m.insert k v).entries) : e = (k, v) ∨ e ∈ m.entries :=
  mem_insertEntry h

/-- Inserting twice under one key keeps the second value, in every map. -/
theorem insert_insert (m : SortedMap κ α) (k : κ) (v w : α) :
    (m.insert k v).insert k w = m.insert k w := by
  obtain ⟨l⟩ := m
  simp only [insert, mk.injEq]
  induction l with
  | nil => simp [insertEntry]
  | cons e rest ih =>
    by_cases he : e.1 = k
    · simp [insertEntry, he]
    · by_cases hlt : k < e.1
      · simp [insertEntry, he, hlt]
      · simp [insertEntry, he, hlt, ih]

/-- Erasing a key after inserting it is erasing it, in every map. -/
theorem erase_insert (m : SortedMap κ α) (k : κ) (v : α) :
    (m.insert k v).erase k = m.erase k := by
  obtain ⟨l⟩ := m
  simp only [insert, erase, filter, mk.injEq]
  induction l with
  | nil => simp [insertEntry]
  | cons e rest ih =>
    by_cases he : e.1 = k
    · simp [insertEntry, he]
    · by_cases hlt : k < e.1
      · simp [insertEntry, he, hlt]
      · rw [insertEntry, if_neg he, if_neg hlt, List.filter_cons, List.filter_cons, ih]

/-- Mapping the values commutes with inserting. -/
theorem mapValues_insert {β : Type} (m : SortedMap κ α) (f : α → β) (k : κ) (v : α) :
    (m.insert k v).mapValues f = (m.mapValues f).insert k (f v) := by
  obtain ⟨l⟩ := m
  simp only [insert, mapValues, mk.injEq]
  induction l with
  | nil => simp [insertEntry]
  | cons e rest ih =>
    by_cases he : e.1 = k
    · simp [insertEntry, he]
    · by_cases hlt : k < e.1
      · simp [insertEntry, he, hlt]
      · simp [insertEntry, he, hlt, ih]

/-- A look-up in the map of a list of entries finds one of the entries. -/
theorem mem_of_find?_ofList {l : List (κ × α)} {k : κ} {a : α} (h : (ofList l).find? k = some a) :
    (k, a) ∈ l := by
  suffices ∀ (l : List (κ × α)) (m : SortedMap κ α),
      (l.foldl (fun m e => m.insert e.1 e.2) m).find? k = some a →
        (k, a) ∈ l ∨ m.find? k = some a by
    rcases this l empty h with h | h
    · exact h
    · simp at h
  intro l
  induction l with
  | nil => exact fun _ h => Or.inr h
  | cons e rest ih =>
    intro m h
    rcases ih _ h with h | h
    · exact Or.inl (List.mem_cons_of_mem _ h)
    · rw [find?_insert] at h
      by_cases hek : e.1 = k
      · rw [if_pos hek] at h
        cases h
        exact Or.inl (hek ▸ List.mem_cons_self)
      · rw [if_neg hek] at h
        exact Or.inr h

/-- Every key of the list of entries has a value in its map. -/
theorem find?_ofList_isSome {l : List (κ × α)} {k : κ} (h : k ∈ l.map (·.1)) :
    ∃ a, (ofList l).find? k = some a := by
  suffices ∀ (l : List (κ × α)) (m : SortedMap κ α), (∃ a, m.find? k = some a) ∨ k ∈ l.map (·.1) →
      ∃ a, (l.foldl (fun m e => m.insert e.1 e.2) m).find? k = some a from
    this l empty (Or.inr h)
  intro l
  induction l with
  | nil =>
    rintro m (h | h)
    · exact h
    · simp at h
  | cons e rest ih =>
    intro m h
    refine ih _ ?_
    by_cases hek : e.1 = k
    · exact Or.inl ⟨e.2, by rw [find?_insert, if_pos hek]⟩
    · rcases h with ⟨a, ha⟩ | h
      · exact Or.inl ⟨a, by rw [find?_insert, if_neg hek]; exact ha⟩
      · rcases List.mem_cons.1 h with h | h
        · exact absurd h.symm hek
        · exact Or.inr h

/-- A key that no entry of the list has has no value in its map. -/
theorem find?_ofList_eq_none {l : List (κ × α)} {k : κ} (h : k ∉ l.map (·.1)) :
    (ofList l).find? k = none := by
  cases hf : (ofList l).find? k with
  | none => rfl
  | some a => exact absurd (List.mem_map_of_mem (f := (·.1)) (mem_of_find?_ofList hf)) h

variable [Std.Trichotomous (α := κ) (· < ·)] [Trans (α := κ) (· < ·) (· < ·) (· < ·)]

/-- Inserting keeps the entries sorted. -/
theorem Sorted.insert {m : SortedMap κ α} (h : m.Sorted) (k : κ) (v : α) :
    (m.insert k v).Sorted := by
  obtain ⟨l⟩ := m
  simp only [Sorted, SortedMap.insert] at h ⊢
  induction l with
  | nil => simp [insertEntry]
  | cons e rest ih =>
    obtain ⟨he, hrest⟩ := List.pairwise_cons.1 h
    unfold insertEntry
    split
    · rename_i hek
      subst hek
      exact List.pairwise_cons.2 ⟨he, hrest⟩
    · split
      · rename_i hne hlt
        refine List.pairwise_cons.2 ⟨?_, h⟩
        intro b hb
        rcases List.mem_cons.1 hb with rfl | hb
        · exact hlt
        · exact Trans.trans hlt (he b hb)
      · rename_i hne hlt
        -- the new key lies above `e.1`, so it may follow `e`
        have hek : e.1 < k := by
          rcases Std.lt_trichotomy e.1 k with h' | h' | h'
          · exact h'
          · exact absurd h' hne
          · exact absurd h' hlt
        refine List.pairwise_cons.2 ⟨?_, ih hrest⟩
        intro b hb
        have hb' : b.1 ∈ (insertEntry k v rest).map (·.1) := List.mem_map_of_mem hb
        rcases (mem_keys_insertEntry k b.1 v rest).1 hb' with hbk | hbk
        · rw [hbk]
          exact hek
        · obtain ⟨c, hc, hcb⟩ := List.mem_map.1 hbk
          rw [← hcb]
          exact he c hc

/-- The map of a list of entries is sorted. -/
theorem sorted_ofList (l : List (κ × α)) : (ofList l).Sorted := by
  unfold ofList
  suffices ∀ (m : SortedMap κ α), m.Sorted → (l.foldl (fun m e => m.insert e.1 e.2) m).Sorted from
    this empty sorted_empty
  induction l with
  | nil => intro m hm; exact hm
  | cons e rest ih => intro m hm; exact ih _ (hm.insert e.1 e.2)

end Keyed

section Irrefl

variable [LT κ] [Std.Irrefl (α := κ) (· < ·)]

omit [DecidableEq κ] in
/-- A sorted map holds each key once. -/
theorem Sorted.nodup_keys {m : SortedMap κ α} (h : m.Sorted) : m.keys.Nodup := by
  obtain ⟨l⟩ := m
  simp only [Sorted, keys_mk] at h ⊢
  refine List.pairwise_map.2 (h.imp ?_)
  intro a b hab heq
  exact Std.lt_irrefl (heq ▸ hab)

/-- In a sorted map, a look-up finds exactly the entries of the map. -/
theorem Sorted.find?_eq_some_iff {m : SortedMap κ α} (h : m.Sorted) {k : κ} {a : α} :
    m.find? k = some a ↔ (k, a) ∈ m.entries := by
  refine ⟨mem_entries_of_find?, fun hm => ?_⟩
  obtain ⟨l⟩ := m
  simp only [Sorted] at h
  simp only [find?, Option.map_eq_some_iff]
  induction l with
  | nil => simp at hm
  | cons e rest ih =>
    obtain ⟨he, hrest⟩ := List.pairwise_cons.1 h
    rcases List.mem_cons.1 hm with rfl | hm
    · exact ⟨(k, a), by simp, rfl⟩
    · -- `k` is above `e.1`, so the search passes `e`
      have hne : ¬ e.1 = k := fun hek => Std.lt_irrefl (hek ▸ he (k, a) hm)
      obtain ⟨x, hx, hxa⟩ := ih hrest hm
      exact ⟨x, by rw [List.find?_cons_of_neg (by simpa using hne)]; exact hx, hxa⟩

end Irrefl

section Replace

variable [LT κ] [∀ a b : κ, Decidable (a < b)] [Std.Irrefl (α := κ) (· < ·)]

/-- Below every key of the list, `insertEntry` puts the entry in front. -/
theorem insertEntry_of_lt {k : κ} {v : α} :
    ∀ {l : List (κ × α)}, (∀ b ∈ l, k < b.1) → insertEntry k v l = (k, v) :: l
  | [], _ => rfl
  | b :: rest, h => by
    have hkb : k < b.1 := h b List.mem_cons_self
    have hne : ¬ b.1 = k := fun hbk => Std.lt_irrefl (hbk ▸ hkb)
    rw [insertEntry, if_neg hne, if_pos hkb]

/-- In a sorted map, inserting after erasing the key is inserting: the key had one entry. -/
theorem insert_erase [Trans (α := κ) (· < ·) (· < ·) (· < ·)] {m : SortedMap κ α} (h : m.Sorted)
    (k : κ) (v : α) :
    (m.erase k).insert k v = m.insert k v := by
  obtain ⟨l⟩ := m
  simp only [Sorted, insert, erase, filter, mk.injEq] at h ⊢
  -- above a key, nothing is erased
  have keep : ∀ {l : List (κ × α)}, (∀ b ∈ l, k < b.1) →
      l.filter (fun e => decide (e.1 ≠ k)) = l := fun hl =>
    List.filter_eq_self.2 (fun b hb => by
      simpa using fun hbk : b.1 = k => Std.lt_irrefl (hbk ▸ hl b hb))
  induction l with
  | nil => rfl
  | cons e rest ih =>
    obtain ⟨he, hrest⟩ := List.pairwise_cons.1 h
    by_cases hek : e.1 = k
    · have hgt : ∀ b ∈ rest, k < b.1 := fun b hb => hek ▸ he b hb
      rw [List.filter_cons_of_neg (by simp [hek]), keep hgt, insertEntry_of_lt hgt, insertEntry,
        if_pos hek]
    · rw [List.filter_cons_of_pos (by simp [hek])]
      by_cases hlt : k < e.1
      · have hgt : ∀ b ∈ rest, k < b.1 := fun b hb => Trans.trans hlt (he b hb)
        rw [keep hgt]
      · rw [insertEntry, if_neg hek, if_neg hlt, insertEntry, if_neg hek, if_neg hlt, ih hrest]

end Replace

end Lookup

end SortedMap

end HindleyMilner
