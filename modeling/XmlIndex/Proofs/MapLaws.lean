import XmlIndex.SortedMap

/-! # Laws of sorted maps

What the operations on a map do to its view, with equality of keys in place of comparison,
and that two maps with one view are one map (`SortedMap.ext_get?`). -/

namespace XmlIndex

namespace SortedMap

variable {κ ν : Type} [Ord κ]

/-- Looking up in a list with other values is applying the change to what is looked up. -/
theorem lookup_map {ω : Type} (f : ν → ω) (k : κ) (l : List (κ × ν)) :
    lookup k (l.map fun e => (e.1, f e.2)) = (lookup k l).map f := by
  induction l with
  | nil => rfl
  | cons e l ih =>
    simp only [List.map_cons, lookup]
    split
    · rfl
    · exact ih

/-- Changing all values changes what is under a key. -/
theorem get?_mapValues {ω : Type} (m : SortedMap κ ν) (f : ν → ω) (k : κ) :
    (m.mapValues f).get? k = (m.get? k).map f :=
  lookup_map f k m.entries

/-- The keys ascend. -/
theorem pairwise_keys (m : SortedMap κ ν) : m.keys.Pairwise fun a b => compare a b = .lt :=
  List.pairwise_map.mpr m.ascending

/-- Two ascending lists with the same elements are equal. -/
theorem eq_of_perm_of_ascending [Std.OrientedOrd κ] {α : Type} (key : α → κ) {l l' : List α}
    (hperm : l.Perm l') (h : l.Pairwise fun a b => compare (key a) (key b) = .lt)
    (h' : l'.Pairwise fun a b => compare (key a) (key b) = .lt) : l = l' := by
  -- No two keys are before each other.
  refine hperm.eq_of_pairwise (fun a b _ _ hab hba => ?_) h h'
  rw [Std.OrientedOrd.eq_swap, hba] at hab
  cases hab

variable [Std.LawfulEqOrd κ]

/-- A key before another is another. -/
theorem ne_of_compare_eq_lt {a b : κ} (h : compare a b = .lt) : a ≠ b := by
  intro he
  rw [he, Std.ReflOrd.compare_self] at h
  cases h

/-- Keys that ascend are different. -/
theorem nodup_of_ascending {l : List κ} (h : l.Pairwise fun a b => compare a b = .lt) :
    l.Nodup :=
  h.imp ne_of_compare_eq_lt

/-- The keys of a map are different. -/
theorem nodup_keys (m : SortedMap κ ν) : m.keys.Nodup := nodup_of_ascending m.pairwise_keys

/-- The entries of a map are different. -/
theorem nodup_entries (m : SortedMap κ ν) : m.entries.Nodup :=
  (List.pairwise_map.mp m.nodup_keys).imp fun hne he => hne (congrArg Prod.fst he)

variable [Std.TransOrd κ]

/-- Two maps with one view are one map. -/
theorem ext_get? {m m' : SortedMap κ ν} (h : ∀ k, m.get? k = m'.get? k) : m = m' := by
  -- The same entries, and as the keys ascend, in the same order.
  have hperm : m.entries.Perm m'.entries :=
    (List.perm_ext_iff_of_nodup m.nodup_entries m'.nodup_entries).mpr fun e => by
      rw [mem_entries_iff, mem_entries_iff, h]
  have heq : m.entries = m'.entries :=
    eq_of_perm_of_ascending Prod.fst hperm m.ascending m'.ascending
  cases m
  cases m'
  simp only at heq
  subst heq
  rfl

/-- The keys are the ascending list of what there is a value under. -/
theorem keys_eq_of_mem_iff {m : SortedMap κ ν} {l : List κ}
    (hl : l.Pairwise fun a b => compare a b = .lt) (h : ∀ k, k ∈ l ↔ (m.get? k).isSome) :
    m.keys = l := by
  have hnodup := nodup_of_ascending hl
  -- The keys and the list have the same elements, and both ascend.
  have hperm : m.keys.Perm l := (List.perm_ext_iff_of_nodup m.nodup_keys hnodup).mpr fun k => by
    rw [mem_keys_iff, h]
    rfl
  exact eq_of_perm_of_ascending id hperm m.pairwise_keys hl

/-- The size is the length of any list of what there is a value under. -/
theorem size_eq_length_of_mem_iff {m : SortedMap κ ν} {l : List κ} (hl : l.Nodup)
    (h : ∀ k, k ∈ l ↔ ∃ v, m.get? k = some v) : m.size = l.length := by
  have hperm : m.keys.Perm l := (List.perm_ext_iff_of_nodup m.nodup_keys hl).mpr fun k => by
    rw [mem_keys_iff, contains, Option.isSome_iff_exists, h]
  have hlength := hperm.length_eq
  rwa [keys, List.length_map] at hlength

/-- A value is in a map if it is under some key. -/
theorem mem_values_iff {m : SortedMap κ ν} {v : ν} : v ∈ m.values ↔ ∃ k, m.get? k = some v := by
  simp only [values, List.mem_map]
  constructor
  · rintro ⟨⟨k, v'⟩, h, rfl⟩
    exact ⟨k, mem_entries_iff.mp h⟩
  · rintro ⟨k, h⟩
    exact ⟨(k, v), mem_entries_iff.mpr h, rfl⟩

variable [DecidableEq κ]

/-- What is under a key after an insertion. -/
theorem get?_insert_eq (m : SortedMap κ ν) (k k' : κ) (v : ν) :
    (m.insert k v).get? k' = if k' = k then some v else m.get? k' := by
  simp only [get?_insert, Std.LawfulEqOrd.compare_eq_iff_eq]

/-- What is under a key after a removal. -/
theorem get?_erase_eq (m : SortedMap κ ν) (k k' : κ) :
    (m.erase k).get? k' = if k = k' then none else m.get? k' := by
  simp only [get?_erase, Std.LawfulEqOrd.compare_eq_iff_eq]

/-- An insertion adds one entry to those under the other keys. -/
theorem entries_insert_perm (m : SortedMap κ ν) (k : κ) (v : ν) :
    (m.insert k v).entries.Perm ((k, v) :: (m.erase k).entries) := by
  have hfresh : (k, v) ∉ (m.erase k).entries := by
    rw [mem_entries_iff, get?_erase_eq, if_pos rfl]
    exact fun h => by cases h
  have hnodup : ((k, v) :: (m.erase k).entries).Nodup :=
    List.nodup_cons.mpr ⟨hfresh, (m.erase k).nodup_entries⟩
  -- Neither list has an entry twice, so it is enough that they have the same entries.
  refine (List.perm_ext_iff_of_nodup (m.insert k v).nodup_entries hnodup).mpr fun (k', v') => ?_
  rw [List.mem_cons, mem_entries_iff, mem_entries_iff, get?_insert_eq, get?_erase_eq,
    Prod.mk.injEq]
  by_cases hk : k' = k
  · simp [hk, eq_comm]
  · simp [hk, Ne.symm hk]

/-- What is under a key after any number of removals. -/
theorem get?_foldl_erase (keys : List κ) (m : SortedMap κ ν) (k : κ) :
    (keys.foldl erase m).get? k = if k ∈ keys then none else m.get? k := by
  induction keys generalizing m with
  | nil => rfl
  | cons k' keys ih =>
    rw [List.foldl_cons, ih, get?_erase_eq]
    by_cases hk : k = k'
    · simp [hk]
    · simp [hk, Ne.symm hk]

/-- What is under a key after the value of one was changed. -/
theorem get?_modify (m : SortedMap κ ν) (k k' : κ) (f : ν → ν) :
    (m.modify k f).get? k' = if k' = k then (m.get? k).map f else m.get? k' := by
  rw [modify]
  split
  · next h =>
    split
    · next hk => rw [hk, h, Option.map_none]
    · rfl
  · next v h => rw [get?_insert_eq, h, Option.map_some]

/-- The keys after any number of insertions. -/
theorem contains_foldl_insert (l : List (κ × ν)) (m : SortedMap κ ν) (k : κ) :
    (l.foldl (fun m e => m.insert e.1 e.2) m).contains k ↔
      m.contains k ∨ ∃ e ∈ l, e.1 = k := by
  induction l generalizing m with
  | nil => simp
  | cons e l ih =>
    rw [List.foldl_cons, ih, contains, get?_insert_eq]
    by_cases hk : k = e.1
    · simp [hk]
    · simp [contains, hk, Ne.symm hk]

/-- A map made of a list has the keys of the list. -/
theorem mem_keys_ofList {l : List (κ × ν)} {k : κ} :
    k ∈ (ofList l).keys ↔ ∃ e ∈ l, e.1 = k := by
  rw [mem_keys_iff, ofList, contains_foldl_insert]
  simp [contains]

/-- What is under a key after insertions under different keys. -/
theorem get?_foldl_insert_eq_some_iff {l : List (κ × ν)} (hl : (l.map (·.1)).Nodup)
    (m : SortedMap κ ν) {k : κ} {v : ν} :
    (l.foldl (fun m e => m.insert e.1 e.2) m).get? k = some v ↔
      (k, v) ∈ l ∨ m.get? k = some v ∧ ∀ e ∈ l, e.1 ≠ k := by
  -- Induction on the entries; the first one is found unless a later one has its key.
  induction l generalizing m with
  | nil => simp
  | cons e l ih =>
    obtain ⟨k₀, v₀⟩ := e
    rw [List.map_cons, List.nodup_cons] at hl
    rw [List.foldl_cons, ih hl.2, get?_insert_eq, List.mem_cons, List.forall_mem_cons,
      Prod.mk.injEq]
    by_cases hk : k = k₀
    · -- No later entry has the key of the first one.
      subst hk
      have hlater : ∀ e ∈ l, e.1 ≠ k := fun e he hkey =>
        hl.1 (List.mem_map.mpr ⟨e, he, hkey⟩)
      have hnot : (k, v) ∉ l := fun hmem => hlater _ hmem rfl
      rw [if_pos rfl, Option.some.injEq]
      constructor
      · rintro (h | ⟨rfl, _⟩)
        · exact absurd h hnot
        · exact .inl (.inl ⟨rfl, rfl⟩)
      · rintro ((⟨_, rfl⟩ | h) | ⟨_, h, _⟩)
        · exact .inr ⟨rfl, hlater⟩
        · exact absurd h hnot
        · exact absurd rfl h
    · simp [hk, Ne.symm hk]

/-- In a map made of a list with different keys every entry of the list counts. -/
theorem get?_ofList_eq_some_iff {l : List (κ × ν)} (hl : (l.map (·.1)).Nodup) {k : κ} {v : ν} :
    (ofList l).get? k = some v ↔ (k, v) ∈ l := by
  rw [ofList, get?_foldl_insert_eq_some_iff hl]
  simp

end SortedMap

end XmlIndex
