import Mathlib.Data.List.Nodup
import XmlIndex.Collection.Cache.Basic
import XmlIndex.Proofs.MapLaws

/-! # Consistency of caches

The key map and the name map of a cache are the inverse of its slots (`Cache.Consistent`): a key
leads to the slot whose resident has that key, a name leads to the key of the resident with
that name, and there is nothing else in the maps.  So a key or a name has one resident at most.

What is done to the slots of a cache keeps it consistent: `Cache.vacate`, `Cache.place` into a
free slot if key and name are new, and `Cache.rebuild` with the first residents.  A consistent
cache passes its own check (`Cache.Consistent.check_eq_ok`), and its look-ups find the resident
asked for exactly if there is one (`get?_eq_some_iff`, `getByName?_eq_some_iff`). -/

namespace XmlIndex

namespace Pool

variable {p p' p'' : Pool}

/-- The collections have the keys and the names they had; there may be more of them. -/
structure Extends (p' p : Pool) : Prop where
  size_le : p.size ≤ p'.size
  key : ∀ place < p.size, (p'.get place).key = (p.get place).key
  name : ∀ place < p.size, (p'.get place).name = (p.get place).name

namespace Extends

/-- All collections have the keys and names that they have. -/
theorem refl (p : Pool) : p.Extends p := ⟨Nat.le_refl _, fun _ _ => rfl, fun _ _ => rfl⟩

/-- Keys and names stay over any number of changes. -/
theorem trans (h' : p''.Extends p') (h : p'.Extends p) : p''.Extends p where
  size_le := Nat.le_trans h.size_le h'.size_le
  key place hplace :=
    (h'.key place (Nat.lt_of_lt_of_le hplace h.size_le)).trans (h.key place hplace)
  name place hplace :=
    (h'.name place (Nat.lt_of_lt_of_le hplace h.size_le)).trans (h.name place hplace)

end Extends

/-- Replacing a collection changes what is at its place only. -/
theorem get_set (p : Pool) (c : Collection) (place other : Place) :
    (p.set place c).get other =
      if place = other ∧ other < p.size then c else p.get other := by
  by_cases h : place = other
  · subst h
    -- Setting a place that is not there changes nothing.
    by_cases hplace : place < p.size
    · rw [get_set_self p c hplace, if_pos ⟨rfl, hplace⟩]
    · rw [if_neg fun hand => hplace hand.2]
      simp only [size] at hplace
      simp [get, set, hplace]
  · rw [get_set_of_ne p c h, if_neg fun hand => h hand.1]

/-- A change that keeps key and name of the collection keeps all keys and names. -/
theorem extends_modify (p : Pool) (place : Place) {f : Collection → Collection}
    (hkey : (f (p.get place)).key = (p.get place).key)
    (hname : (f (p.get place)).name = (p.get place).name) : (p.modify place f).Extends p where
  size_le := Nat.le_of_eq (size_set p _ place).symm
  key other _ := by
    rw [modify, get_set]
    split
    · next h => rw [hkey, h.1]
    · rfl
  name other _ := by
    rw [modify, get_set]
    split
    · next h => rw [hname, h.1]
    · rfl

/-- A collection more leaves the keys and names of the others. -/
theorem extends_push (p : Pool) (c : Collection) : (p.push c).Extends p where
  size_le := by simp [size, push]
  key place h := by rw [get_push_of_lt p c h]
  name place h := by rw [get_push_of_lt p c h]

end Pool

namespace Cache

variable {c c' : Cache} {pool pool' : Pool} {slot slot' : Nat} {place place' : Pool.Place}

/-- A check of every element passes if it passes for each. -/
theorem forM_eq_ok {α : Type} {f : α → Except Error Unit} {l : List α}
    (h : ∀ a ∈ l, f a = .ok ()) : l.forM f = .ok () := by
  induction l with
  | nil => rfl
  | cons a l ih =>
    obtain ⟨ha, hl⟩ := List.forall_mem_cons.mp h
    change (f a >>= fun _ => l.forM f) = .ok ()
    rw [ha]
    exact ih hl

/-! ## Slots -/

/-- The resident of a slot is what stands in it. -/
theorem resident?_eq_some_iff :
    c.resident? slot = some place ↔ c.slots[slot]? = some (some place) := by
  rw [resident?, List.getD_eq_getElem?_getD]
  cases c.slots[slot]? <;> simp

/-- The residents are those who have a slot. -/
theorem mem_residents_iff : place ∈ c.residents ↔ ∃ slot, c.resident? slot = some place := by
  rw [residents, List.mem_filterMap]
  simp only [id_eq, exists_eq_right, List.mem_iff_getElem?, resident?_eq_some_iff]

/-- Whoever has a slot is a resident. -/
theorem mem_residents (h : c.resident? slot = some place) : place ∈ c.residents :=
  mem_residents_iff.mpr ⟨slot, h⟩

/-- A slot with a resident is one of the slots. -/
theorem lt_capacity (h : c.resident? slot = some place) : slot < c.capacity := by
  rw [resident?_eq_some_iff] at h
  exact (List.getElem?_eq_some_iff.mp h).1

/-- When a slot is vacated, the residents of the other slots stay. -/
theorem resident?_vacate_eq_some_iff {collection : Collection} :
    (c.vacate slot collection).resident? slot' = some place ↔
      slot ≠ slot' ∧ c.resident? slot' = some place := by
  simp only [resident?_eq_some_iff, vacate, List.getElem?_set]
  by_cases hslots : slot = slot'
  · simp [hslots]
  · simp [hslots]

/-- A slot is free after its resident has left. -/
theorem resident?_vacate_self (c : Cache) (slot : Nat) (collection : Collection) :
    (c.vacate slot collection).resident? slot = none :=
  Option.eq_none_iff_forall_ne_some.mpr fun _ h => (resident?_vacate_eq_some_iff.mp h).1 rfl

/-- A vacated slot still counts. -/
theorem capacity_vacate (c : Cache) (slot : Nat) (collection : Collection) :
    (c.vacate slot collection).capacity = c.capacity := List.length_set

/-- The collection that is placed is in its slot, and the others are where they were. -/
theorem resident?_place_eq_some_iff {collection : Collection} (hslot : slot < c.capacity) :
    (c.place slot place collection).resident? slot' = some place' ↔
      slot = slot' ∧ place = place' ∨ slot ≠ slot' ∧ c.resident? slot' = some place' := by
  rw [capacity] at hslot
  simp only [resident?_eq_some_iff, Cache.place, List.getElem?_set, hslot, if_true]
  by_cases hslots : slot = slot'
  · simp [hslots]
  · simp [hslots]

/-- Whatever comes into a free slot is one resident more. -/
theorem mem_residents_place {collection : Collection} (hslot : slot < c.capacity)
    (hfree : c.resident? slot = none) :
    place' ∈ (c.place slot place collection).residents ↔ place' = place ∨ place' ∈ c.residents := by
  simp only [mem_residents_iff, resident?_place_eq_some_iff hslot]
  constructor
  · rintro ⟨slot', ⟨_, rfl⟩ | ⟨_, hslot'⟩⟩
    · exact .inl rfl
    · exact .inr ⟨slot', hslot'⟩
  · rintro (rfl | ⟨slot', hslot'⟩)
    · exact ⟨slot, .inl ⟨rfl, rfl⟩⟩
    · refine ⟨slot', .inr ⟨?_, hslot'⟩⟩
      -- A resident that was there cannot be in the slot that was free.
      rintro rfl
      rw [hfree] at hslot'
      cases hslot'

/-- The slot that is found free is one of the slots, and nobody is in it. -/
theorem freeSlot?_eq_some (h : c.freeSlot? = some slot) :
    slot < c.capacity ∧ c.resident? slot = none := by
  obtain ⟨hslot, hnone, _⟩ := List.findIdx?_eq_some_iff_getElem.mp h
  refine ⟨hslot, ?_⟩
  rw [resident?, List.getD_eq_getElem?_getD, List.getElem?_eq_getElem hslot]
  simpa using hnone

/-- No slot is found free exactly if every slot has a resident. -/
theorem freeSlot?_eq_none_iff :
    c.freeSlot? = none ↔ ∀ slot < c.capacity, ∃ place, c.resident? slot = some place := by
  rw [freeSlot?, List.findIdx?_eq_none_iff, capacity]
  simp only [resident?_eq_some_iff, List.forall_mem_iff_forall_getElem]
  refine forall_congr' fun slot => forall_congr' fun hslot => ?_
  rw [List.getElem?_eq_getElem hslot]
  cases c.slots[slot] <;> simp

/-- After a resize the collections stand in the slots from the first on. -/
theorem resident?_rebuild (c : Cache) (pool : Pool) (size : Nat) (places : List Pool.Place)
    (slot : Nat) : (c.rebuild pool size places).resident? slot = places[slot]? := by
  simp only [resident?, rebuild, List.getD_eq_getElem?_getD]
  rcases Nat.lt_or_ge slot places.length with h | h
  · simp [List.getElem?_append_left, h]
  · rw [List.getElem?_append_right (by simpa using h), List.getElem?_eq_none h,
      List.getElem?_replicate]
    split <;> rfl

/-- The residents after a resize are the collections that it was given. -/
theorem residents_rebuild (c : Cache) (pool : Pool) (size : Nat) (places : List Pool.Place) :
    (c.rebuild pool size places).residents = places := by
  simp [residents, rebuild, List.filterMap_append, List.filterMap_map]

/-- After a resize there are as many slots as were asked for. -/
theorem capacity_rebuild (c : Cache) (pool : Pool) {size : Nat} {places : List Pool.Place}
    (h : places.length ≤ size) : (c.rebuild pool size places).capacity = size := by
  simp only [capacity, rebuild, List.length_append, List.length_map, List.length_replicate]
  omega

/-- In the list of the residents nobody stands behind the place of its slot. -/
theorem exists_index_le (h : c.resident? slot = some place) :
    ∃ i ≤ slot, c.residents[i]? = some place := by
  rw [resident?_eq_some_iff] at h
  obtain ⟨hslot, hplace⟩ := List.getElem?_eq_some_iff.mp h
  -- Of the slots in front of this one some may be free, none has two residents.
  have hsplit : c.residents =
      (c.slots.take slot).filterMap id ++ place :: (c.slots.drop (slot + 1)).filterMap id := by
    conv_lhs => rw [residents, ← List.take_append_drop slot c.slots,
      List.drop_eq_getElem_cons hslot, hplace, List.filterMap_append]
    rfl
  refine ⟨((c.slots.take slot).filterMap id).length, ?_, ?_⟩
  · exact Nat.le_trans (List.length_filterMap_le id _) (List.length_take_le slot _)
  · rw [hsplit, List.getElem?_append_right (Nat.le_refl _), Nat.sub_self, List.getElem?_cons_zero]

/-- Without a free slot the slots are the list of the residents. -/
theorem slots_eq_of_full (hfull : c.freeSlot? = none) : c.slots = c.residents.map some := by
  -- No slot is free, so none is left out of the residents.
  have hsome : ∀ x ∈ c.slots, x.isSome := fun x hx => by
    have hnone := List.findIdx?_eq_none_iff.mp hfull x hx
    cases x <;> simp_all
  rw [residents, List.map_filterMap]
  conv_lhs => rw [← List.filterMap_some (l := c.slots)]
  refine List.filterMap_congr fun x hx => ?_
  obtain ⟨place, rfl⟩ := Option.isSome_iff_exists.mp (hsome x hx)
  rfl

/-- Without a free slot the residents have the numbers of their slots. -/
theorem residents_getElem?_of_full (hfull : c.freeSlot? = none)
    (h : c.resident? slot = some place) : c.residents[slot]? = some place := by
  rw [resident?_eq_some_iff, slots_eq_of_full hfull, List.getElem?_map,
    Option.map_eq_some_iff] at h
  obtain ⟨_, h, heq⟩ := h
  rw [h, Option.some.inj heq]

/-- What differs from slot to slot differs from resident to resident. -/
theorem nodup_map_residents {α : Type} {f : Pool.Place → α}
    (h : ∀ slot slot' place place', c.resident? slot = some place →
      c.resident? slot' = some place' → f place = f place' → slot = slot') :
    (c.residents.map f).Nodup := by
  rw [List.Nodup, List.pairwise_map, residents, List.pairwise_filterMap, List.pairwise_iff_getElem]
  intro i j hi hj hij place hplace place' hplace' heq
  refine Nat.ne_of_lt hij (h i j place place' ?_ ?_ heq)
  · rw [resident?_eq_some_iff, List.getElem?_eq_getElem hi]
    exact congrArg some hplace
  · rw [resident?_eq_some_iff, List.getElem?_eq_getElem hj]
    exact congrArg some hplace'

/-! ## Consistency -/

/-- The key map and the name map are the inverse of the slots. -/
structure Consistent (c : Cache) (pool : Pool) : Prop where
  /-- The residents are collections in memory. -/
  known : ∀ slot place, c.resident? slot = some place → place < pool.size
  keys : ∀ key slot, c.keys.get? key = some slot ↔
    ∃ place, c.resident? slot = some place ∧ (pool.get place).key = key
  names : ∀ name key, c.names.get? name = some key ↔
    ∃ slot place, c.resident? slot = some place ∧
      (pool.get place).name = name ∧ (pool.get place).key = key

/-- A new cache has no residents and empty maps. -/
theorem consistent_ofSize (size threshold : Nat) (pool : Pool) :
    (ofSize size threshold).Consistent pool := by
  have hnone : ∀ slot place, (ofSize size threshold).resident? slot ≠ some place := by
    intro slot place
    rw [ne_eq, resident?_eq_some_iff, ofSize, List.getElem?_replicate]
    split <;> simp
  -- Neither side of the two equivalences ever holds.
  refine ⟨fun slot place h => absurd h (hnone slot place), fun key slot => ?_, fun name key => ?_⟩
  · refine iff_of_false (by simp [ofSize]) ?_
    rintro ⟨place, h, _⟩
    exact hnone slot place h
  · refine iff_of_false (by simp [ofSize]) ?_
    rintro ⟨slot, place, h, _⟩
    exact hnone slot place h

namespace Consistent

variable (h : c.Consistent pool)

include h

/-- The key of a resident leads to its slot. -/
theorem keys_of_resident (hslot : c.resident? slot = some place) :
    c.keys.get? (pool.get place).key = some slot :=
  (h.keys _ _).mpr ⟨place, hslot, rfl⟩

/-- The name of a resident leads to its key. -/
theorem names_of_resident (hslot : c.resident? slot = some place) :
    c.names.get? (pool.get place).name = some (pool.get place).key :=
  (h.names _ _).mpr ⟨slot, place, hslot, rfl, rfl⟩

/-- A key has one slot. -/
theorem slot_unique (hslot : c.resident? slot = some place)
    (hslot' : c.resident? slot' = some place')
    (hkey : (pool.get place).key = (pool.get place').key) : slot = slot' := by
  have hfirst := h.keys_of_resident hslot
  rw [hkey, h.keys_of_resident hslot'] at hfirst
  exact (Option.some.inj hfirst).symm

/-- A name has one slot. -/
theorem slot_unique_of_name (hslot : c.resident? slot = some place)
    (hslot' : c.resident? slot' = some place')
    (hname : (pool.get place).name = (pool.get place').name) : slot = slot' := by
  have hfirst := h.names_of_resident hslot
  rw [hname, h.names_of_resident hslot'] at hfirst
  exact h.slot_unique hslot hslot' (Option.some.inj hfirst).symm

/-! ### Look-ups -/

/-- A key finds the resident that has it. -/
theorem get?_eq_some_iff (key : Nat) (place : Pool.Place) :
    c.get? key = some place ↔ place ∈ c.residents ∧ (pool.get place).key = key := by
  rw [get?, Option.bind_eq_some_iff, mem_residents_iff]
  constructor
  · rintro ⟨slot, hslot, hplace⟩
    obtain ⟨_, hplace', hkey⟩ := (h.keys key slot).mp hslot
    obtain rfl := Option.some.inj (hplace.symm.trans hplace')
    exact ⟨⟨slot, hplace⟩, hkey⟩
  · rintro ⟨⟨slot, hplace⟩, rfl⟩
    exact ⟨slot, h.keys_of_resident hplace, hplace⟩

/-- A name finds the resident that has it. -/
theorem getByName?_eq_some_iff (name : String) (place : Pool.Place) :
    c.getByName? name = some place ↔ place ∈ c.residents ∧ (pool.get place).name = name := by
  rw [getByName?, Option.bind_eq_some_iff]
  constructor
  · rintro ⟨key, hname, hplace⟩
    obtain ⟨slot, place', hslot, hname, hkey⟩ := (h.names name key).mp hname
    -- The key of the resident with that name is the key of that resident alone.
    have hplace' := (h.get?_eq_some_iff key place').mpr ⟨mem_residents hslot, hkey⟩
    obtain rfl := Option.some.inj (hplace'.symm.trans hplace)
    exact ⟨mem_residents hslot, hname⟩
  -- Conversely the name of a resident leads to its key, and the key to its slot.
  · rintro ⟨hmem, rfl⟩
    obtain ⟨slot, hslot⟩ := mem_residents_iff.mp hmem
    exact ⟨(pool.get place).key, h.names_of_resident hslot,
      (h.get?_eq_some_iff _ _).mpr ⟨hmem, rfl⟩⟩

/-- A key finds nobody exactly if no resident has it. -/
theorem get?_eq_none_iff (key : Nat) :
    c.get? key = none ↔ ∀ place ∈ c.residents, (pool.get place).key ≠ key := by
  rw [Option.eq_none_iff_forall_ne_some]
  simp only [ne_eq, h.get?_eq_some_iff, not_and]

/-- A name finds nobody exactly if no resident has it. -/
theorem getByName?_eq_none_iff (name : String) :
    c.getByName? name = none ↔ ∀ place ∈ c.residents, (pool.get place).name ≠ name := by
  rw [Option.eq_none_iff_forall_ne_some]
  simp only [ne_eq, h.getByName?_eq_some_iff, not_and]

/-- Two residents do not have one name. -/
theorem eq_of_name (hplace : place ∈ c.residents) (hplace' : place' ∈ c.residents)
    (hname : (pool.get place').name = (pool.get place).name) : place' = place := by
  have hfirst := (h.getByName?_eq_some_iff _ _).mpr ⟨hplace, rfl⟩
  rw [(h.getByName?_eq_some_iff _ _).mpr ⟨hplace', hname⟩] at hfirst
  exact Option.some.inj hfirst

/-- A name leads to the slot of its resident. -/
theorem slot_of_name_iff (name : String) (slot : Nat) :
    (c.names.get? name).bind c.keys.get? = some slot ↔
      ∃ place, c.resident? slot = some place ∧ (pool.get place).name = name := by
  rw [Option.bind_eq_some_iff]
  constructor
  -- From the name to the key, and from the key to the slot.
  · rintro ⟨key, hmap, hkey⟩
    obtain ⟨slot', place, hplace, hname, rfl⟩ := (h.names name key).mp hmap
    obtain rfl := Option.some.inj (hkey.symm.trans (h.keys_of_resident hplace))
    exact ⟨place, hplace, hname⟩
  · rintro ⟨place, hplace, rfl⟩
    exact ⟨_, h.names_of_resident hplace, h.keys_of_resident hplace⟩

/-- A key that finds nobody is not in the key map. -/
theorem keys_eq_none_of_get? {key : Nat} (hnone : c.get? key = none) : c.keys.get? key = none := by
  refine Option.eq_none_iff_forall_ne_some.mpr fun slot hslot => ?_
  obtain ⟨place, hplace, hkey⟩ := (h.keys key slot).mp hslot
  exact (h.get?_eq_none_iff key).mp hnone place (mem_residents hplace) hkey

/-! ### Sizes and the check -/

/-- No two residents have one key. -/
theorem nodup_residents_key : (c.residents.map fun place => (pool.get place).key).Nodup :=
  nodup_map_residents fun _ _ _ _ => h.slot_unique

/-- No two residents have one name. -/
theorem nodup_residents_name : (c.residents.map fun place => (pool.get place).name).Nodup :=
  nodup_map_residents fun _ _ _ _ => h.slot_unique_of_name

/-- No collection has two slots. -/
theorem nodup_residents : c.residents.Nodup := h.nodup_residents_key.of_map _

/-- The key map has an entry for each resident. -/
theorem size_keys : c.keys.size = c.residents.length := by
  rw [SortedMap.size_eq_length_of_mem_iff h.nodup_residents_key, List.length_map]
  intro key
  simp only [List.mem_map, h.keys, mem_residents_iff]
  exact ⟨fun ⟨place, ⟨slot, hslot⟩, hkey⟩ => ⟨slot, place, hslot, hkey⟩,
    fun ⟨slot, place, hslot, hkey⟩ => ⟨place, ⟨slot, hslot⟩, hkey⟩⟩

/-- The name map has an entry for each resident. -/
theorem size_names : c.names.size = c.residents.length := by
  rw [SortedMap.size_eq_length_of_mem_iff h.nodup_residents_name, List.length_map]
  intro name
  simp only [List.mem_map, h.names, mem_residents_iff]
  exact ⟨fun ⟨place, ⟨slot, hslot⟩, hname⟩ => ⟨_, slot, place, hslot, hname, rfl⟩,
    fun ⟨_, slot, place, hslot, hname, _⟩ => ⟨place, ⟨slot, hslot⟩, hname⟩⟩

/-- There are no more residents than slots. -/
theorem size_le_capacity : c.size ≤ c.capacity := by
  rw [size, h.size_keys]
  exact List.length_filterMap_le id c.slots

/-- Every entry of the key map passes the check. -/
theorem checkKey_eq_ok {key : Nat} (hslot : c.keys.get? key = some slot) :
    c.checkKey pool key slot = .ok () := by
  obtain ⟨place, hplace, rfl⟩ := (h.keys key slot).mp hslot
  simp [checkKey, hplace, h.names_of_resident hplace]

/-- Every entry of the name map passes the check. -/
theorem checkName_eq_ok {name : String} {key : Nat} (hname : c.names.get? name = some key) :
    c.checkName name key = .ok () := by
  obtain ⟨slot, place, hplace, _, rfl⟩ := (h.names name key).mp hname
  simp [checkName, SortedMap.contains, h.keys_of_resident hplace]

/-- A consistent cache passes its check. -/
theorem check_eq_ok : c.check pool = .ok () := by
  have hkeys : (c.keys.entries.forM fun e => c.checkKey pool e.1 e.2) = .ok () :=
    forM_eq_ok fun e he => h.checkKey_eq_ok (SortedMap.mem_entries_iff.mp he)
  have hnames : (c.names.entries.forM fun e => c.checkName e.1 e.2) = .ok () :=
    forM_eq_ok fun e he => h.checkName_eq_ok (SortedMap.mem_entries_iff.mp he)
  -- Neither map has entries without a resident.
  have hsizes : ¬ (c.residents.length ≠ c.keys.size ∨ c.residents.length ≠ c.names.size) := by
    rw [h.size_keys, h.size_names]
    simp
  rw [check]
  simp only [hsizes, if_false]
  exact (congrArg (· >>= fun _ => _) hkeys).trans hnames

/-! ### Changes of the slots -/

/-- Only slots, maps, keys and names count. -/
theorem congr (hslots : c'.slots = c.slots) (hkeys : c'.keys = c.keys) (hnames : c'.names = c.names)
    (hpool : pool'.Extends pool) : c'.Consistent pool' := by
  -- The residents are read off the slots alone.
  have hresident : ∀ slot, c'.resident? slot = c.resident? slot := fun slot => by
    rw [resident?, hslots, resident?]
  refine ⟨fun slot place hslot => ?_, fun key slot => ?_, fun name key => ?_⟩
  · rw [hresident] at hslot
    exact Nat.lt_of_lt_of_le (h.known slot place hslot) hpool.size_le
  · rw [hkeys, h.keys]
    simp only [hresident]
    refine exists_congr fun place => and_congr_right fun hslot => ?_
    rw [hpool.key place (h.known slot place hslot)]
  · rw [hnames, h.names]
    simp only [hresident]
    refine exists_congr fun slot => exists_congr fun place => and_congr_right fun hslot => ?_
    rw [hpool.key place (h.known slot place hslot), hpool.name place (h.known slot place hslot)]

/-- More collections in memory make no cache inconsistent. -/
theorem of_extends (hpool : pool'.Extends pool) : c.Consistent pool' := h.congr rfl rfl rfl hpool

/-- A cache stays consistent when a resident leaves its slot with its key and its name. -/
theorem vacated (hslot : c.resident? slot = some place) :
    (c.vacate slot (pool.get place)).Consistent pool := by
  refine ⟨fun slot' place' hslot' => ?_, fun key slot' => ?_, fun name key => ?_⟩
  · exact h.known slot' place' (resident?_vacate_eq_some_iff.mp hslot').2
  -- The key of the resident is erased, and no other slot has that key.
  · simp only [resident?_vacate_eq_some_iff]
    rw [Cache.vacate, SortedMap.get?_erase_eq]
    constructor
    · intro hmap
      split at hmap
      · cases hmap
      · next hkey =>
        obtain ⟨place', hplace', rfl⟩ := (h.keys key slot').mp hmap
        refine ⟨place', ⟨fun hslots => hkey ?_, hplace'⟩, rfl⟩
        subst hslots
        rw [Option.some.inj (hslot.symm.trans hplace')]
    -- Who stays has another key, as keys are distinct.
    · rintro ⟨place', ⟨hslots, hplace'⟩, rfl⟩
      rw [if_neg fun hkey => hslots (h.slot_unique hslot hplace' hkey)]
      exact h.keys_of_resident hplace'
  -- The same holds for its name.
  · simp only [resident?_vacate_eq_some_iff]
    rw [Cache.vacate, SortedMap.get?_erase_eq]
    constructor
    · intro hmap
      split at hmap
      · cases hmap
      · next hname =>
        obtain ⟨slot', place', hplace', rfl, hkey⟩ := (h.names name key).mp hmap
        refine ⟨slot', place', ⟨fun hslots => hname ?_, hplace'⟩, rfl, hkey⟩
        subst hslots
        rw [Option.some.inj (hslot.symm.trans hplace')]
    · rintro ⟨slot', place', ⟨hslots, hplace'⟩, rfl, rfl⟩
      rw [if_neg fun hname => hslots (h.slot_unique_of_name hslot hplace' hname)]
      exact h.names_of_resident hplace'

/-- All residents stay but the one that leaves. -/
theorem mem_residents_vacate (hslot : c.resident? slot = some place) :
    place' ∈ (c.vacate slot (pool.get place)).residents ↔
      place' ∈ c.residents ∧ place' ≠ place := by
  simp only [mem_residents_iff, resident?_vacate_eq_some_iff]
  constructor
  -- The one that leaves had only this slot.
  · rintro ⟨slot', hslots, hslot'⟩
    refine ⟨⟨slot', hslot'⟩, ?_⟩
    rintro rfl
    exact hslots (h.slot_unique hslot hslot' rfl)
  · rintro ⟨⟨slot', hslot'⟩, hne⟩
    refine ⟨slot', ?_, hslot'⟩
    rintro rfl
    exact hne (Option.some.inj (hslot'.symm.trans hslot))

/-- A new key with a new name may come into a free slot. -/
theorem placed (hslot : slot < c.capacity) (hfree : c.resident? slot = none)
    (hplace : place < pool.size) (hkey : c.keys.get? (pool.get place).key = none)
    (hname : c.names.get? (pool.get place).name = none) :
    (c.place slot place (pool.get place)).Consistent pool := by
  -- The slot was free, so all residents are in other slots.
  have hother : ∀ {slot' place'}, c.resident? slot' = some place' → slot ≠ slot' := by
    rintro slot' place' hslot' rfl
    rw [hfree] at hslot'
    cases hslot'
  refine ⟨fun slot' place' hslot' => ?_, fun key slot' => ?_, fun name key => ?_⟩
  -- The new resident is known, and so are the others.
  · rcases (resident?_place_eq_some_iff hslot).mp hslot' with ⟨_, rfl⟩ | ⟨_, hslot'⟩
    · exact hplace
    · exact h.known slot' place' hslot'
  -- The key of the new resident was in nobody's use, so no entry is overwritten.
  · simp only [resident?_place_eq_some_iff hslot]
    rw [Cache.place, SortedMap.get?_insert_eq]
    constructor
    · intro hmap
      split at hmap
      · next heq => exact ⟨place, .inl ⟨Option.some.inj hmap, rfl⟩, heq.symm⟩
      · obtain ⟨place', hplace', hkey'⟩ := (h.keys key slot').mp hmap
        exact ⟨place', .inr ⟨hother hplace', hplace'⟩, hkey'⟩
    · rintro ⟨place', ⟨rfl, rfl⟩ | ⟨_, hplace'⟩, rfl⟩
      · rw [if_pos rfl]
      · have hmap := h.keys_of_resident hplace'
        rwa [if_neg fun heq => by rw [heq, hkey] at hmap; cases hmap]
  -- The same holds for its name.
  · simp only [resident?_place_eq_some_iff hslot]
    rw [Cache.place, SortedMap.get?_insert_eq]
    constructor
    · intro hmap
      split at hmap
      · next heq =>
        exact ⟨slot, place, .inl ⟨rfl, rfl⟩, heq.symm, Option.some.inj hmap⟩
      · obtain ⟨slot', place', hplace', hname', hkey'⟩ := (h.names name key).mp hmap
        exact ⟨slot', place', .inr ⟨hother hplace', hplace'⟩, hname', hkey'⟩
    · rintro ⟨slot', place', ⟨rfl, rfl⟩ | ⟨_, hplace'⟩, rfl, rfl⟩
      · rw [if_pos rfl]
      · have hmap := h.names_of_resident hplace'
        rwa [if_neg fun heq => by rw [heq, hname] at hmap; cases hmap]

omit h in
/-- The slots may be filled anew, from the first on, with collections that differ in key and
in name. -/
theorem rebuild_of_nodup (c : Cache) (size : Nat) {places : List Pool.Place}
    (hknown : ∀ place ∈ places, place < pool.size)
    (hkeys : (places.map fun place => (pool.get place).key).Nodup)
    (hnames : (places.map fun place => (pool.get place).name).Nodup) :
    (c.rebuild pool size places).Consistent pool := by
  refine ⟨fun slot place hslot => ?_, fun key slot => ?_, fun name key => ?_⟩
  · rw [resident?_rebuild] at hslot
    exact hknown place (List.mem_of_getElem? hslot)
  -- A key map made of distinct keys holds every pair that it was made of.
  · simp only [resident?_rebuild]
    rw [rebuild, SortedMap.get?_ofList_eq_some_iff]
    · simp only [List.mem_map, Prod.exists, List.mem_zipIdx_iff_getElem?, List.getElem?_map,
        Prod.mk.injEq, Option.map_eq_some_iff]
      constructor
      · rintro ⟨_, _, ⟨place, hplace, rfl⟩, hkey, rfl⟩
        exact ⟨place, hplace, hkey⟩
      · rintro ⟨place, hplace, hkey⟩
        exact ⟨_, slot, ⟨place, hplace, rfl⟩, hkey, rfl⟩
    -- That the keys are distinct is what was supposed.
    · have hmap : ((places.map pool.get).zipIdx.map fun e => (e.1.key, e.2)).map (·.1) =
          places.map fun place => (pool.get place).key := calc
        _ = ((places.map pool.get).zipIdx.map (·.1)).map (·.key) := by
          simp only [List.map_map, Function.comp_def]
        _ = _ := by
          rw [List.zipIdx_map_fst, List.map_map]
          rfl
      rwa [hmap]
  -- The name map is made of the same collections.
  · simp only [resident?_rebuild]
    rw [rebuild, SortedMap.get?_ofList_eq_some_iff]
    · simp only [List.mem_map, Prod.mk.injEq]
      constructor
      · rintro ⟨_, ⟨place, hplace, rfl⟩, hname, hkey⟩
        obtain ⟨slot, hslot⟩ := List.mem_iff_getElem?.mp hplace
        exact ⟨slot, place, hslot, hname, hkey⟩
      · rintro ⟨slot, place, hslot, hname, hkey⟩
        exact ⟨_, ⟨place, List.mem_of_getElem? hslot, rfl⟩, hname, hkey⟩
    · simpa [Function.comp_def, List.map_map] using hnames

/-- The first residents may be moved together in any number of slots. -/
theorem rebuilt (size : Nat) :
    (c.rebuild pool size (c.residents.take size)).Consistent pool := by
  refine rebuild_of_nodup c size (fun place hplace => ?_) ?_ ?_
  · obtain ⟨slot, hslot⟩ := mem_residents_iff.mp (List.mem_of_mem_take hplace)
    exact h.known slot place hslot
  · rw [List.map_take]
    exact h.nodup_residents_key.sublist (List.take_sublist _ _)
  · rw [List.map_take]
    exact h.nodup_residents_name.sublist (List.take_sublist _ _)

end Consistent

end Cache

end XmlIndex
