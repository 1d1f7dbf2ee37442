import XmlIndex.Proofs.CacheRuns

/-! # What stays in a cache

A victim is a resident that may leave, so a resident that is pinned or held by a writer makes no
room for others.  It is not the only way to leave: a resize takes the first residents along and
no others, whatever they are, and a collection that comes in under a new key makes the old
bearer of its name leave.  These are all ways there are (`Hosted.Run.held_stays`), and both are
open to residents in use (`Hosted.held_leaves_secondInUse`). -/

namespace XmlIndex

namespace Hosted

variable {σ : Type} {host : Cache.Host σ} {incoming : Collection} {s t : Hosted σ} {slot : Nat}
  {place other : Pool.Place}

/-- A resize takes the first residents along. -/
theorem resize_stays (host : Cache.Host σ) {i : Nat} (hi : s.cache.residents[i]? = some other)
    (size : Nat) :
    other ∈ (Action.stateOf (resize host size s)).cache.residents ∨
      size ≤ i ∧ (Action.stateOf (resize host size s)).cache.capacity = size := by
  rcases resize_cases host size s with ⟨e, t, _, hresize, hcache⟩ | ⟨t, _, hresize, hcache⟩
  · rw [hresize]
    left
    show other ∈ t.cache.residents
    rw [hcache]
    exact List.mem_of_getElem? hi
  · rw [hresize]
    show other ∈ (t.cache.rebuild t.pool size (t.cache.residents.take size)).residents ∨
      size ≤ i ∧ (t.cache.rebuild t.pool size (t.cache.residents.take size)).capacity = size
    -- The cache is built anew from the first residents, as many as fit.
    rw [Cache.residents_rebuild, Cache.capacity_rebuild _ _ (List.length_take_le size _), hcache]
    rcases Nat.lt_or_ge i size with hlt | hge
    · left
      exact List.mem_of_getElem? ((List.getElem?_take_of_lt hlt).trans hi)
    · exact .inr ⟨hge, rfl⟩

/-- A resident without a reason to leave stays when a collection comes in, or it is cut off by
a resize of a full cache. -/
theorem add_stays (host : Cache.Host σ) (hc : s.cache.Consistent s.pool)
    (hslot : s.cache.resident? slot = some other)
    (hreason : ¬ (s.pool.get place).LeavesFor (s.pool.get other)) (refs : UInt32) :
    other ∈ (Action.stateOf (add host place refs s)).cache.residents ∨
      other ∈ s.cache.residents.drop
        (Action.stateOf (add host place refs s)).cache.capacity := by
  have hadded := add_added host hc place refs
  generalize Action.stateOf (add host place refs s) = u at hadded
  -- The collection that comes in takes another slot.
  have hbring : ∀ {t slot'}, Moves host (s.pool.get place) s t → t.HasRoomFor slot' place →
      (t.bring slot' place).cache.resident? slot = some other := by
    intro t slot' hmoves hroom
    have hstays := (hmoves.stays hslot hreason).1
    refine (Cache.resident?_place_eq_some_iff hroom.slot_lt).mpr (.inr ⟨?_, hstays⟩)
    rintro rfl
    rw [hroom.free] at hstays
    cases hstays
  -- Only where a full cache grows afterwards can the resident lose its slot.
  cases hadded with
  | stopped hmoves => exact .inl (Cache.mem_residents (hmoves.stays hslot hreason).1)
  | placed hmoves hroom => exact .inl (Cache.mem_residents (hbring hmoves hroom))
  | @replaced t slot' hfull hmoves hroom uses replacements =>
    have hslot' := hbring hmoves hroom
    have hreason' : ¬ (s.pool.get place).LeavesFor ((t.bring slot' place).pool.get other) :=
      (hmoves.stays hslot hreason).2
    rcases grow_cases host (s.pool.get place) ((t.bring slot' place).withCounts uses replacements)
      with hgrown | ⟨size, v, hasked, hcache, hgrow⟩
    · exact .inl (Cache.mem_residents (hgrown.stays hslot' hreason').1)
    · -- As the cache was full, the resident stands in the list as far back as its slot says.
      obtain ⟨i, hi, hresident⟩ := Cache.exists_index_le hslot'
      have hresident : v.cache.residents[i]? = some other := by
        rw [hcache]
        exact hresident
      rw [hgrow]
      rcases resize_stays host hresident size with hstays | ⟨hsize, hcapacity⟩
      · exact .inl hstays
      · right
        rw [hcapacity]
        refine List.mem_of_getElem? (i := slot - size) ?_
        rw [List.getElem?_drop, Nat.add_sub_of_le (Nat.le_trans hsize hi)]
        exact Cache.residents_getElem?_of_full hfull hslot

/-- A resident that is pinned or held by a writer stays through every call, unless the call leaves
the cache with fewer slots than there are residents up to it, or its name comes in under another
key.  In particular it stays through a resize that fails. -/
theorem Run.held_stays {size threshold : Nat} (h : Run host size threshold s)
    (hresident : other ∈ s.cache.residents)
    (hheld : (s.pool.get other).hasWriter = true ∨ (s.pool.get other).pinned = true) :
    (∀ place refs,
      other ∈ (Call.after host s (.add place refs)).cache.residents ∨
      other ∈ s.cache.residents.drop (Call.after host s (.add place refs)).cache.capacity ∨
      (s.pool.get other).name = (s.pool.get place).name ∧
        (s.pool.get other).key ≠ (s.pool.get place).key) ∧
    ∀ newSize,
      other ∈ (Call.after host s (.resize newSize)).cache.residents ∨
      (Call.after host s (.resize newSize)).cache.capacity = newSize ∧
        other ∈ s.cache.residents.drop newSize := by
  obtain ⟨slot, hslot⟩ := Cache.mem_residents_iff.mp hresident
  have hmay : (s.pool.get other).mayLeave = false := by
    -- Held or pinned, it may not be chosen as a victim.
    rw [Collection.mayLeave, Collection.isReadable]
    rcases hheld with hheld | hheld <;> simp [hheld]
  refine ⟨fun place refs => ?_, fun newSize => ?_⟩
  · by_cases hname : (s.pool.get other).name = (s.pool.get place).name ∧
        (s.pool.get other).key ≠ (s.pool.get place).key
    · exact .inr (.inr hname)
    -- The only other reason to leave is the name, which is excluded here.
    · have hreason : ¬ (s.pool.get place).LeavesFor (s.pool.get other) := by
        rintro (hleave | hleave)
        · rw [hmay] at hleave
          cases hleave
        · exact hname hleave
      rcases add_stays host h.consistent hslot hreason refs with hstays | hcut
      · exact .inl hstays
      · exact .inr (.inl hcut)
  · obtain ⟨i, hi⟩ := List.mem_iff_getElem?.mp hresident
    rcases resize_stays host hi newSize with hstays | ⟨hsize, hcapacity⟩
    · exact .inl hstays
    · -- A resize that fails leaves nobody out, so this one has gone through.
      refine .inr ⟨hcapacity, List.mem_of_getElem? (i := i - newSize) ?_⟩
      rw [List.getElem?_drop, Nat.add_sub_of_le hsize]
      exact hi

/-- Two residents, the second of which is in use. -/
def secondInUse : Hosted Bool :=
  ⟨twoResidents.cache,
    twoResidents.pool.modify 1 fun c => { c with hasWriter := true, pinned := true }, false⟩

theorem run_secondInUse : Run meager 2 0 secondInUse :=
  .others run_twoResidents _ _ (Pool.extends_modify _ 1 rfl rfl)

/-- Two slots are enough for it to stay. -/
theorem held_stays_secondInUse :
    Run meager 2 0 secondInUse ∧ 1 ∈ secondInUse.cache.residents ∧
      (secondInUse.pool.get 1).hasWriter = true ∧
      1 ∈ (Call.after meager secondInUse (.resize 2)).cache.residents :=
  ⟨run_secondInUse, by decide, by decide,
    ((run_secondInUse.held_stays (by decide) (.inl (by decide))).2 2).resolve_right (by decide)⟩

/-- A resident in use leaves when the cache is resized to one slot, when a collection with its
name and another key comes in, and when one comes in at the cost of a slot. -/
theorem held_leaves_secondInUse :
    Run meager 2 0 secondInUse ∧ 1 ∈ secondInUse.cache.residents ∧
      (secondInUse.pool.get 1).hasWriter = true ∧ (secondInUse.pool.get 1).pinned = true ∧
      1 ∉ (Call.after meager secondInUse (.resize 1)).cache.residents ∧
      1 ∉ (Call.after meager secondInUse (.add 2 1)).cache.residents ∧
      1 ∉ (Call.after meager secondInUse (.add 3 1)).cache.residents :=
  ⟨run_secondInUse, by decide, by decide, by decide, by decide, by decide, by decide⟩

end Hosted

end XmlIndex
