import XmlIndex.Collection.Budget
import XmlIndex.Proofs.CacheRuns

/-! # What a cache takes in

If `add` answers, the collection is a resident afterwards, unless its key had one before
(`Hosted.add_eq_ok`).  If it fails, no slot is free, and either all residents are in use or the
one that should leave cannot be written back; slots and maps are then as they were
(`Hosted.add_eq_error`).

Both hold for collections with a new name in surroundings that never grant fewer slots than
there are (`Cache.Host.NeverShrinks`): growing then lets nothing leave and cannot fail.  A budget
takes none away (`Cache.Host.AsksBudget.neverShrinks`). -/

namespace XmlIndex

/-- What is promised by those who grant slots: whoever is asked for more slots for a cache that has
`current` of them answers a new size, which is not smaller, or refuses. -/
def Cache.Host.NeverShrinks {σ : Type} (host : Cache.Host σ) : Prop :=
  ∀ current state size, (host.requestSlots current state).1 = some size → current ≤ size

/-- Slots are asked for at a budget that is part of the surroundings, if there is one. -/
def Cache.Host.AsksBudget {σ : Type} (host : Cache.Host σ) (cache : String) : Prop :=
  ∃ budget? : σ → Option Budget, ∀ current state,
    (host.requestSlots current state).map id budget? =
      Budget.requestFrom (budget? state) cache current

/-- A budget grants more slots than there are, or none at all. -/
theorem Budget.lt_of_requestFrom {budget? : Option Budget} {cache : String} {current size : Nat}
    (h : (requestFrom budget? cache current).1 = some size) : current < size := by
  cases budget? with
  | none => cases h
  | some budget =>
    dsimp only [requestFrom, request] at h
    split at h
    · cases h
    -- A grant that is no more than the present size counts as a refusal.
    · next hmore =>
      obtain rfl := Option.some.inj h
      exact Nat.lt_of_not_le hmore

/-- A budget never grants fewer slots than there are. -/
theorem Cache.Host.AsksBudget.neverShrinks {σ : Type} {host : Cache.Host σ} {cache : String}
    (h : host.AsksBudget cache) : host.NeverShrinks := by
  obtain ⟨budget?, hasks⟩ := h
  intro current state size hgranted
  have hanswer : (Budget.requestFrom (budget? state) cache current).1 = some size := by
    rw [← hasks]
    exact hgranted
  exact Nat.le_of_lt (Budget.lt_of_requestFrom hanswer)

namespace Hosted

variable {σ : Type} {host : Cache.Host σ} {s t u : Hosted σ} {slot : Nat}
  {place other : Pool.Place} {refs : UInt32} {e : Error}

/-! ## Growing -/

/-- Where fewer slots are never granted, growing keeps all residents and cannot fail; no more is
done to the surroundings than to ask for slots. -/
theorem exists_grow (hgrants : host.NeverShrinks) (s : Hosted σ) :
    ∃ t, grow host s = .ok () t ∧ t.cache.residents = s.cache.residents ∧
      (t.host = s.host ∨ t.host = (host.requestSlots s.cache.capacity s.host).2) := by
  rw [grow_eq]
  -- It is time to ask for slots, or not.
  split
  · cases hgranted : (host.requestSlots s.cache.capacity s.host).1 with
    | none =>
      simp only [hgranted]
      exact ⟨_, rfl, rfl, .inr rfl⟩
    | some size =>
      have hfits : s.cache.residents.length ≤ size :=
        Nat.le_trans (List.length_filterMap_le id _) (hgrants _ _ _ hgranted)
      simp only [hgranted]
      exact ⟨_, resize_of_fits hfits, Cache.residents_rebuild .., .inr rfl⟩
  · exact ⟨s, rfl, rfl, .inl rfl⟩

/-! ## Coming in -/

/-- Whoever is brought in is a resident. -/
theorem mem_residents_bring_self (hslot : slot < s.cache.capacity) :
    place ∈ (s.bring slot place).cache.residents :=
  Cache.mem_residents ((Cache.resident?_place_eq_some_iff hslot).mpr (.inl ⟨rfl, rfl⟩))

/-- What is inserted is a resident. -/
theorem mem_residents_of_insert {evicted? : Option Pool.Place} (hgrants : host.NeverShrinks)
    (h : insert host place refs s = .ok evicted? t) : place ∈ t.cache.residents := by
  rw [insert_eq] at h
  split at h
  · cases h
  · next u _ =>
    -- There was a free slot, or somebody has left and slots may be asked for, or there is no room.
    rcases makeRoom_moves host (s.pool.get place) (u.withUse place refs u.cache.uses) with
      ⟨slot, hmake, hfree⟩ | ⟨slot, left, v, hmake, _, _, hslot, _⟩ | ⟨e, v, hmake, _⟩
    · simp only [hmake] at h
      obtain ⟨_, rfl⟩ := EStateM.Result.ok.inj h
      exact mem_residents_bring_self (Cache.freeSlot?_eq_some hfree).1
    · obtain ⟨w, hgrow, hresidents, _⟩ := exists_grow hgrants
        ((v.bring slot place).withCounts v.cache.uses (v.cache.replacements + 1))
      simp only [hmake, hgrow] at h
      obtain ⟨_, rfl⟩ := EStateM.Result.ok.inj h
      rw [hresidents]
      exact mem_residents_bring_self hslot
    · simp only [hmake] at h
      cases h

/-- If `add` answers, the collection is a resident, or else its key had a resident and nothing
comes in. -/
theorem add_eq_ok {evicted? : Option Pool.Place} (hgrants : host.NeverShrinks)
    (h : add host place refs s = .ok evicted? t) :
    (s.cache.get? (s.pool.get place).key = none ∧ place ∈ t.cache.residents) ∨
      (s.cache.get? (s.pool.get place).key).isSome ∧ t.cache.SameSlots s.cache := by
  rw [add_eq] at h
  dsimp only at h
  split at h
  -- The key has a resident, so only uses are counted.
  · next hkey =>
    obtain ⟨_, rfl⟩ := EStateM.Result.ok.inj h
    rw [hkey]
    exact .inr ⟨rfl, rfl, rfl, rfl⟩
  · next hkey => exact .inl ⟨hkey, mem_residents_of_insert hgrants h⟩

/-- A name without a resident is free already. -/
theorem evictName_of_absent (hc : s.cache.Consistent s.pool) {name : String}
    (habsent : ∀ place ∈ s.cache.residents, (s.pool.get place).name ≠ name) :
    evictName host name s = .ok () s := by
  have hlookup : (s.cache.names.get? name).bind s.cache.keys.get? = none := by
    refine Option.eq_none_iff_forall_ne_some.mpr fun slot hslot => ?_
    obtain ⟨place, hplace, hname⟩ := (hc.slot_of_name_iff name slot).mp hslot
    exact habsent place (Cache.mem_residents hplace) hname
  rw [evictName_eq, hlookup]

/-- A collection with a new name is inserted without fail where a slot is free. -/
theorem exists_insert_of_free (hc : s.cache.Consistent s.pool)
    (habsent : ∀ other ∈ s.cache.residents, (s.pool.get other).name ≠ (s.pool.get place).name)
    (hfree : s.cache.freeSlot? ≠ none) (refs : UInt32) :
    ∃ evicted? t, insert host place refs s = .ok evicted? t := by
  obtain ⟨slot, hslot⟩ := Option.ne_none_iff_exists'.mp hfree
  have hslot' : (s.withUse place refs s.cache.uses).cache.freeSlot? = some slot := hslot
  -- With the name new and a slot free, no hook is called that could fail.
  rw [insert_eq, evictName_of_absent hc habsent]
  dsimp only
  rw [makeRoom_eq, hslot']
  exact ⟨_, _, rfl⟩

/-- A collection with a new name comes in without fail where a slot is free. -/
theorem exists_add_of_free (hc : s.cache.Consistent s.pool)
    (habsent : ∀ other ∈ s.cache.residents, (s.pool.get other).name ≠ (s.pool.get place).name)
    (hfree : s.cache.freeSlot? ≠ none) (refs : UInt32) :
    ∃ evicted? t, add host place refs s = .ok evicted? t := by
  rw [add_eq]
  dsimp only
  -- A resident is only counted.
  split
  · exact ⟨_, _, rfl⟩
  · have hcounted : (s.withCounts (s.cache.uses + 1) s.cache.replacements).cache.Consistent
        (s.withCounts (s.cache.uses + 1) s.cache.replacements).pool :=
      hc.congr rfl rfl rfl (.refl _)
    exact exists_insert_of_free hcounted habsent hfree refs

/-! ## Being refused -/

/-- Why nothing comes in: no slot is free, and either all residents are in use, or one that
could leave cannot be written back, and the surroundings are left as by that failure. -/
inductive Refuses (host : Cache.Host σ) (s : Hosted σ) : Error → σ → Prop
  | inUse (full : s.cache.freeSlot? = none)
    (held : ∀ place ∈ s.cache.residents, (s.pool.get place).mayLeave = false) :
    Refuses host s (.cacheFull s.cache.capacity) s.host
  | unwritten (full : s.cache.freeSlot? = none) {place : Pool.Place}
    (resident : place ∈ s.cache.residents) (leaves : (s.pool.get place).mayLeave = true)
    {e : Error} {state : σ}
    (fails : host.writeBack (s.pool.get place)
      (host.invalidate (s.pool.get place).name s.host) = .error e state) :
    Refuses host s e state

/-- Only the slots, the residents and the surroundings count. -/
theorem Refuses.congr {state : σ} (h : Refuses host t e state)
    (hslots : t.cache.slots = s.cache.slots) (hhost : t.host = s.host)
    (hget : ∀ place ∈ s.cache.residents, t.pool.get place = s.pool.get place) :
    Refuses host s e state := by
  have hresidents : t.cache.residents = s.cache.residents := by
    rw [Cache.residents, hslots, Cache.residents]
  have hfull : t.cache.freeSlot? = s.cache.freeSlot? := by
    rw [Cache.freeSlot?, hslots, Cache.freeSlot?]
  -- Either cause reads the slots and the residents only.
  cases h with
  | inUse full held =>
    rw [hfull] at full
    rw [hresidents] at held
    have hheld : ∀ place ∈ s.cache.residents, (s.pool.get place).mayLeave = false :=
      fun place hplace => hget place hplace ▸ held place hplace
    have hcapacity : t.cache.capacity = s.cache.capacity := congrArg List.length hslots
    rw [hcapacity, hhost]
    exact .inUse full hheld
  | unwritten full resident leaves fails =>
    rw [hfull] at full
    rw [hresidents] at resident
    rw [hget _ resident] at leaves
    rw [hget _ resident, hhost] at fails
    exact .unwritten full resident leaves fails

/-- A release that fails has failed to write back. -/
theorem release_eq_error (h : release host place s = .error e t) :
    t.cache = s.cache ∧ t.pool = s.pool ∧
      host.writeBack (s.pool.get place) (host.invalidate (s.pool.get place).name s.host) =
        .error e t.host := by
  rw [release_eq] at h
  split at h
  · cases h
  · cases h
  · next hwrite =>
    obtain ⟨rfl, rfl⟩ := EStateM.Result.error.inj h
    exact ⟨rfl, rfl, hwrite⟩

/-- If there is no room, nothing comes in. -/
theorem makeRoom_eq_error (h : makeRoom host s = .error e t) :
    t.cache = s.cache ∧ t.pool = s.pool ∧ Refuses host s e t.host := by
  rw [makeRoom_eq] at h
  split at h
  · cases h
  · next hfull =>
    -- There is nobody who may leave, or the one who should cannot be written back.
    split at h
    · next hvictim =>
      obtain ⟨rfl, rfl⟩ := EStateM.Result.error.inj h
      exact ⟨rfl, rfl, .inUse hfull fun _ => Cache.mayLeave_of_victim?_eq_none hvictim⟩
    · next slot hvictim =>
      obtain ⟨victim, hslot, hleave⟩ := Cache.victim?_eq_some hvictim
      simp only [evict_eq, hslot] at h
      cases hrelease : release host victim s with
      | ok _ u =>
        simp only [hrelease] at h
        cases h
      | error e' u =>
        simp only [hrelease] at h
        obtain ⟨rfl, rfl⟩ := EStateM.Result.error.inj h
        obtain ⟨hcache, hpool, hwrite⟩ := release_eq_error hrelease
        exact ⟨hcache, hpool, .unwritten hfull (Cache.mem_residents hslot) hleave hwrite⟩

/-- If inserting a collection with a new name fails, the cache and the collections in memory are
as they were, but for the one that did not come in. -/
theorem insert_eq_error (hgrants : host.NeverShrinks) (hc : s.cache.Consistent s.pool)
    (habsent : ∀ other ∈ s.cache.residents, (s.pool.get other).name ≠ (s.pool.get place).name)
    (h : insert host place refs s = .error e t) :
    t.cache = s.cache ∧ t.pool = (s.withUse place refs s.cache.uses).pool ∧
      Refuses host s e t.host := by
  rw [insert_eq, evictName_of_absent hc habsent] at h
  dsimp only at h
  split at h
  · next hmake =>
    obtain ⟨rfl, rfl⟩ := EStateM.Result.error.inj h
    obtain ⟨hcache, hpool, hrefuses⟩ := makeRoom_eq_error hmake
    refine ⟨hcache, hpool, hrefuses.congr rfl rfl fun other hother => ?_⟩
    -- The collection that should come in is not among those that could leave.
    have hne : other ≠ place := by
      rintro rfl
      exact habsent other hother rfl
    exact get_withUse_of_ne s hne refs s.cache.uses
  · cases h
  · next slot evicted v _ =>
    obtain ⟨w, hgrow, _⟩ := exists_grow hgrants
      ((v.bring slot place).withCounts v.cache.uses (v.cache.replacements + 1))
    rw [hgrow] at h
    cases h

/-- If `add` fails for a collection with a new name, slots and maps are as they were, and so are
all other collections in memory. -/
theorem add_eq_error (hgrants : host.NeverShrinks) (hc : s.cache.Consistent s.pool)
    (habsent : ∀ other ∈ s.cache.residents, (s.pool.get other).name ≠ (s.pool.get place).name)
    (h : add host place refs s = .error e t) :
    t.cache.SameSlots s.cache ∧ t.pool.size = s.pool.size ∧
      (∀ other, other ≠ place → t.pool.get other = s.pool.get other) ∧
      Refuses host s e t.host := by
  rw [add_eq] at h
  dsimp only at h
  -- A resident of the key is never refused.
  split at h
  · cases h
  · have hcounted : (s.withCounts (s.cache.uses + 1) s.cache.replacements).cache.Consistent
        (s.withCounts (s.cache.uses + 1) s.cache.replacements).pool :=
      hc.congr rfl rfl rfl (.refl _)
    obtain ⟨hcache, hpool, hrefuses⟩ := insert_eq_error hgrants hcounted habsent h
    rw [hcache, hpool]
    refine ⟨⟨rfl, rfl, rfl⟩, Pool.size_set .., fun other hne => ?_,
      hrefuses.congr rfl rfl fun _ _ => rfl⟩
    exact get_withUse_of_ne (s.withCounts (s.cache.uses + 1) s.cache.replacements) hne refs _

end Hosted

end XmlIndex
