import XmlIndex.Proofs.CatalogHistories

/-! # Newcomers

A collection that was just made or loaded stands in memory (`Catalog.Newcomer`) before the cache
is asked to take it in.  If the cache answers, it holds the newcomer under its name exactly if no
resident has the key of the newcomer (`Catalog.Newcomer.mem_residents_add_iff`).  If the cache
refuses, it is crowded (`Catalog.Crowded`), and nothing has changed
(`Catalog.Newcomer.add_eq_error`).  Both are so where fewer slots than there are never get granted
(`LawfulSlotSource`).

Creating and opening come to that: a creation fails before its record is written
(`Catalog.create_of_not_writes`), or it comes to a newcomer whose record is written
(`Catalog.create_of_writes`); opening a name finds a resident, or comes to a newcomer with the
stored record (`Catalog.openNamed_cases_value`). -/

namespace XmlIndex

namespace Catalog

variable {μ : Type} {s t u : Catalog μ} {record : Record} {id : CollectionId} {name : String}
  {now : Timestamp} {e : Error}

/-- One more collection is in memory, that of the record; the cache and the other collections are
as they were. -/
structure Newcomer (record : Record) (t s : Catalog μ) : Prop where
  cache : t.cache = s.cache
  size : t.pool.size = s.pool.size + 1
  pool : ∀ place < s.pool.size, t.pool.get place = s.pool.get place
  key : (t.pool.get s.pool.size).key = record.id.toNat
  name : (t.pool.get s.pool.size).name = record.name
  holds : (t.pool.get s.pool.size).record = record

/-- Why a cache takes nothing in: no slot is free, and all residents are in use, or one that may
leave has changes that cannot be written. -/
inductive Crowded (s : Catalog μ) : Error → Prop
  | inUse (full : s.cache.freeSlot? = none)
    (held : ∀ place ∈ s.cache.residents, (s.pool.get place).mayLeave = false) :
    Crowded s (.cacheFull s.cache.capacity)
  | unwritten (full : s.cache.freeSlot? = none) {place : Pool.Place}
    (resident : place ∈ s.cache.residents) (leaves : (s.pool.get place).mayLeave = true)
    (dirty : (s.pool.get place).dirty = true) {store store' : Store} {e : Error}
    (fails : writeRecord (s.pool.get place) store = .error e store') : Crowded s e

/-- A crowded cache has no free slot. -/
theorem Crowded.full (h : Crowded s e) : s.cache.freeSlot? = none := by
  cases h with
  | inUse full _ => exact full
  | unwritten full _ _ _ _ => exact full

/-- Only slots and residents count. -/
theorem Crowded.congr (h : Crowded t e) (hcache : t.cache = s.cache)
    (hget : ∀ place ∈ s.cache.residents, t.pool.get place = s.pool.get place) : Crowded s e := by
  -- Being held and being refused by the store are said of the residents alone.
  cases h with
  | inUse full held =>
    rw [hcache] at full held ⊢
    exact .inUse full fun place hplace => hget place hplace ▸ held place hplace
  | unwritten full resident leaves dirty fails =>
    rw [hcache] at full resident
    rw [hget _ resident] at leaves dirty fails
    exact .unwritten full resident leaves dirty fails

variable [SlotSource μ]

/-! ## Refusals -/

/-- A cache that refuses to take something in is crowded. -/
theorem crowded_of_refuses {g : Ground μ} (h : Hosted.Refuses hosting s e g) : Crowded s e := by
  cases h with
  | inUse full held => exact .inUse full held
  | unwritten full resident leaves fails =>
    obtain ⟨hdirty, _, hwrite, _⟩ := writeBack_eq_error fails
    exact .unwritten full resident leaves hdirty hwrite

/-- Nothing is written when the cache refuses. -/
theorem value?_of_refuses {g : Ground μ} (h : Hosted.Refuses hosting s e g) (key : Bytes) :
    g.store.value? key = s.host.store.value? key := by
  cases h with
  | inUse _ _ => rfl
  | unwritten _ _ _ fails =>
    obtain ⟨_, store, hwrite, rfl⟩ := writeBack_eq_error fails
    exact writeRecord_eq_error hwrite key

/-! ## Coming in -/

omit [SlotSource μ] in
/-- What was just put in memory is a newcomer. -/
theorem newcomer_allocated (h : SameValues t s) (record : Record) :
    Newcomer record (t.allocated record) s := by
  have hget := get_allocated t record
  rw [h.pool] at hget
  -- It has the place behind all others, which are as they were.
  refine ⟨h.cache, ?_, fun place hplace => ?_, ?_, ?_, ?_⟩
  · rw [← h.pool]
    simp [allocated, Pool.size, Pool.push]
  · rw [← h.pool] at hplace ⊢
    exact Pool.get_push_of_lt _ _ hplace
  · rw [hget, Collection.ofRecord]
  · rw [hget, Collection.ofRecord]
  · rw [hget, Collection.ofRecord]

namespace Newcomer

variable (h : Newcomer record t s)

include h

omit [SlotSource μ] in
/-- It has a place in memory. -/
theorem lt_size : s.pool.size < t.pool.size := by
  rw [h.size]
  exact Nat.lt_succ_self _

omit [SlotSource μ] in
/-- The memory goes on from what it was. -/
theorem extends_pool : t.pool.Extends s.pool where
  size_le := Nat.le_of_lt h.lt_size
  key place hplace := by rw [h.pool place hplace]
  name place hplace := by rw [h.pool place hplace]

omit [SlotSource μ] in
/-- The catalog goes on from what it was. -/
theorem continues : Continues t s := by
  refine continues_of_sameSlots ?_ h.extends_pool
  rw [h.cache]
  exact ⟨rfl, rfl, rfl⟩

omit [SlotSource μ] in
/-- Writing the record of a newcomer leaves it one. -/
theorem written (hw : Written s.pool.size u t) : Newcomer record u s := by
  have hpool := hw.sameUpToUse
  refine ⟨hw.cache.trans h.cache, hpool.size.trans h.size, fun place hplace => ?_, ?_, ?_, ?_⟩
  · rw [hw.pool, Pool.get_modify_of_ne (Nat.ne_of_lt hplace), h.pool place hplace]
  · rw [hpool.key, h.key]
  · rw [hpool.name, h.name]
  · rw [hpool.record, h.holds]

omit [SlotSource μ] in
/-- The residents are as they were. -/
theorem get_resident (hc : s.cache.Consistent s.pool) {place : Pool.Place}
    (hplace : place ∈ s.cache.residents) : t.pool.get place = s.pool.get place := by
  obtain ⟨slot, hslot⟩ := Cache.mem_residents_iff.mp hplace
  exact h.pool place (hc.known slot place hslot)

/-- A newcomer that is taken in keeps its name and its record. -/
theorem added (hc : s.cache.Consistent s.pool) {evicted? : Option Pool.Place}
    (hadd : Hosted.add hosting s.pool.size 1 t = .ok evicted? u) :
    u.cache.Consistent u.pool ∧ (u.pool.get s.pool.size).name = record.name ∧
      (u.pool.get s.pool.size).record = record := by
  -- The newcomer has a place of its own, so the cache is as consistent as before.
  have hct := h.continues.consistent hc
  have hcu := (continues_add hct h.lt_size 1).consistent hct
  have hpool := Hosted.add_sameUpToUse hosting hct s.pool.size 1
  rw [hadd] at hcu hpool
  exact ⟨hcu, (hpool.name _).trans h.name, (hpool.record _).trans h.holds⟩

/-- The cache has a newcomer that is taken in under its name, unless its key had a resident. -/
theorem mem_residents_add_iff [LawfulSlotSource μ] (hc : s.cache.Consistent s.pool)
    {evicted? : Option Pool.Place}
    (hadd : Hosted.add hosting s.pool.size 1 t = .ok evicted? u) :
    s.pool.size ∈ u.cache.residents ↔ s.cache.get? record.id.toNat = none := by
  -- Either it has come in, or its key had a resident and the slots are as they were.
  rcases Hosted.add_eq_ok hosting_neverShrinks hadd with ⟨hkey, hmem⟩ | ⟨hkey, hslots⟩
  · rw [h.key, h.cache] at hkey
    exact iff_of_true hmem hkey
  · rw [h.key, h.cache] at hkey
    refine iff_of_false (fun hmem => ?_) (fun hnone => ?_)
    · rw [Cache.residents, hslots.slots, h.cache] at hmem
      obtain ⟨slot, hslot⟩ := Cache.mem_residents_iff.mp hmem
      exact Nat.lt_irrefl _ (hc.known slot _ hslot)
    · rw [hnone] at hkey
      cases hkey

omit [SlotSource μ] in
/-- No resident has the name of a newcomer with a new name. -/
theorem absent (hc : s.cache.Consistent s.pool)
    (habsent : ∀ place ∈ s.cache.residents, (s.pool.get place).name ≠ record.name) :
    ∀ place ∈ t.cache.residents, (t.pool.get place).name ≠ (t.pool.get s.pool.size).name := by
  -- The newcomer is behind all residents, which are as they were before it was made.
  intro place hplace
  rw [h.cache] at hplace
  rw [h.get_resident hc hplace, h.name]
  exact habsent place hplace

/-- A newcomer with a new name is refused only by a crowded cache, and then nothing changes. -/
theorem add_eq_error [LawfulSlotSource μ] (hc : s.cache.Consistent s.pool)
    (habsent : ∀ place ∈ s.cache.residents, (s.pool.get place).name ≠ record.name)
    (hadd : Hosted.add hosting s.pool.size 1 t = .error e u) :
    Crowded s e ∧ u.cache.SameSlots s.cache ∧
      (∀ place < s.pool.size, u.pool.get place = s.pool.get place) ∧
      ∀ key, u.host.store.value? key = t.host.store.value? key := by
  obtain ⟨hslots, _, hothers, hrefuses⟩ := Hosted.add_eq_error hosting_neverShrinks
    (h.continues.consistent hc) (h.absent hc habsent) hadd
  rw [h.cache] at hslots
  refine ⟨(crowded_of_refuses hrefuses).congr h.cache fun _ => h.get_resident hc, hslots,
    fun place hplace => ?_, value?_of_refuses hrefuses⟩
  -- The newcomer has the place behind all others.
  rw [hothers place (Nat.ne_of_lt hplace), h.pool place hplace]

/-- A newcomer with a new name comes into a free slot without fail. -/
theorem exists_add (hc : s.cache.Consistent s.pool)
    (habsent : ∀ place ∈ s.cache.residents, (s.pool.get place).name ≠ record.name)
    (hfree : s.cache.freeSlot? ≠ none) :
    ∃ evicted? u, Hosted.add hosting s.pool.size 1 t = .ok evicted? u :=
  Hosted.exists_add_of_free (h.continues.consistent hc) (h.absent hc habsent) (h.cache ▸ hfree) 1

end Newcomer

/-! ## Creating -/

omit [SlotSource μ] in
/-- The name of a new collection is free, and its record can be written. -/
def Writes (record : Record) (s : Catalog μ) : Prop :=
  ∃ t store, isKnown record.name s = .ok false t ∧
    writeRecord (.ofRecord record) t.host.store = .ok () store

omit [SlotSource μ] in
/-- The state after a creation has written its record: a newcomer stands in memory, its bytes are
stored where there was no value under its name, and no resident has its name. -/
structure Announced (record : Record) (t s : Catalog μ) : Prop extends Newcomer record t s where
  absent : ∀ place ∈ s.cache.residents, (s.pool.get place).name ≠ record.name
  before : s.host.value? record.name = none
  value? : ∀ key, t.host.store.value? key =
    if key = Record.key record.name then some record.encode else s.host.store.value? key

omit [SlotSource μ] in
/-- Saving a newcomer is writing its record. -/
theorem save_allocated_eq (t : Catalog μ) (record : Record) :
    save t.pool.size (t.allocated record) =
      match writeRecord (.ofRecord record) t.host.store with
      | .ok _ store =>
        .ok () { t.allocated record with
          pool := (t.allocated record).pool.modify t.pool.size .markClean
          host := { t.host with store } }
      | .error e store => .error e { t.allocated record with host := { t.host with store } } := by
  rw [save_eq, get_allocated]
  rfl

/-- A creation whose record is not written fails and leaves everything as it is, but that the
collection may be in memory. -/
theorem create_of_not_writes (h : ¬ Writes (newRecord id name now) s) :
    ∃ e t, create id name now s = .error e t ∧ t.cache = s.cache ∧
      (∀ place < s.pool.size, t.pool.get place = s.pool.get place) ∧
      ∀ key, t.host.store.value? key = s.host.store.value? key := by
  rw [create_eq]
  cases hknown : isKnown name s with
  | error e t =>
    have hsame := isKnown_eq_error hknown
    exact ⟨e, t, rfl, hsame.cache, fun _ _ => by rw [hsame.pool], hsame.value?⟩
  | ok known t =>
    have hsame := (isKnown_eq_ok hknown).1
    cases known with
    -- The name is known and refused.
    | true => exact ⟨_, t, rfl, hsame.cache, fun _ _ => by rw [hsame.pool], hsame.value?⟩
    | false =>
      cases hwrite : writeRecord (.ofRecord (newRecord id name now)) t.host.store with
      | ok _ store => exact absurd ⟨t, store, hknown, hwrite⟩ h
      | error e store =>
        simp only [save_allocated_eq, hwrite]
        exact ⟨e, _, rfl, hsame.cache, (newcomer_allocated hsame (newRecord id name now)).pool,
          fun key => (writeRecord_eq_error hwrite key).trans (hsame.value? key)⟩

/-- A creation whose record is written asks the cache to take the collection in. -/
theorem create_of_writes (hc : s.cache.Consistent s.pool) (h : Writes (newRecord id name now) s) :
    ∃ t, Announced (newRecord id name now) t s ∧ create id name now s =
      match Hosted.add hosting s.pool.size 1 t with
      | .error e u => .error e u
      | .ok _ u => .ok s.pool.size u := by
  obtain ⟨t, store, hknown, hwrite⟩ := h
  have hknown : isKnown name s = .ok false t := hknown
  obtain ⟨hsame, hmeans⟩ := isKnown_eq_ok hknown
  -- The name was not known, so it has neither a resident nor a value.
  obtain ⟨habsent, hvalue⟩ := Bool.or_eq_false_iff.mp hmeans.symm
  rw [Option.isSome_eq_false_iff, Option.isNone_iff_eq_none] at habsent hvalue
  have hnewcomer := newcomer_allocated hsame (newRecord id name now)
  have hsave := save_allocated_eq t (newRecord id name now)
  simp only [hwrite] at hsave
  have hwritten := save_eq_ok hsave
  rw [create_eq, hknown]
  simp only [hsave]
  rw [hsame.pool] at hwritten ⊢
  refine ⟨_, ⟨hnewcomer.written hwritten, (hc.getByName?_eq_none_iff name).mp habsent, hvalue,
    fun key => ?_⟩, rfl⟩
  rw [hwritten.value?, hnewcomer.name, hnewcomer.holds]
  exact if_congr Iff.rfl rfl (hsame.value? key)

/-! ## Opening -/

/-- Opening a name answers the resident with the name; or nothing, if there is no value; or the
newcomer with the stored record, if the cache takes it in. -/
theorem openNamed_cases_value (name : String) (s : Catalog μ) :
    (∃ place t, s.cache.getByName? name = some place ∧ openNamed name s = .ok (some place) t ∧
      t.cache.SameSlots s.cache ∧ t.pool.SameUpToUse s.pool) ∨
    s.cache.getByName? name = none ∧
      ((∃ e t, load name s = .error e t ∧ openNamed name s = .error e t) ∨
      (∃ t, load name s = .ok none t ∧ openNamed name s = .ok none t) ∨
      ∃ record t, load name s = .ok (some record) t ∧
        Newcomer record (t.allocated record) s ∧
        openNamed name s =
          match Hosted.add hosting s.pool.size 1 (t.allocated record) with
          | .error e u => .error e u
          | .ok _ u => .ok (some s.pool.size) u) := by
  rw [openNamed_eq]
  -- A resident is marked as used and answered without the store.
  cases hfound : s.cache.getByName? name with
  | some place =>
    obtain ⟨found, t, htouch, hslots, hpool⟩ := Hosted.exists_touch (s.pool.get place).key s
    simp only [htouch]
    exact .inl ⟨place, t, rfl, rfl, hslots, hpool⟩
  | none =>
    refine .inr ⟨rfl, ?_⟩
    cases hload : load name s with
    | error e t => exact .inl ⟨e, t, rfl, rfl⟩
    | ok record? t =>
      have hsame := (load_eq_ok hload).1
      cases record? with
      | none => exact .inr (.inl ⟨t, rfl, rfl⟩)
      | some record =>
        rw [← hsame.pool]
        exact .inr (.inr ⟨record, t, rfl, newcomer_allocated hsame record, rfl⟩)

/-- A name without a resident is opened with its stored record. -/
theorem openNamed_eq_ok_of_absent (hc : s.cache.Consistent s.pool)
    (habsent : s.cache.getByName? name = none) {place? : Option Pool.Place}
    (hopen : openNamed name s = .ok place? t) :
    place?.map (fun place => (t.pool.get place).record) = s.host.stored? name := by
  -- Of all that opening a name may come to, two cases are left.
  rcases openNamed_cases_value name s with ⟨place, _, hfound, _⟩ |
    ⟨_, ⟨e, u, _, hfails⟩ | ⟨u, hload, hnone⟩ | ⟨record, u, hload, hnewcomer, hadd⟩⟩
  · rw [habsent] at hfound
    cases hfound
  · rw [hopen] at hfails
    cases hfails
  · rw [hopen] at hnone
    obtain ⟨rfl, _⟩ := EStateM.Result.ok.inj hnone
    exact (load_eq_ok hload).2.2
  · rw [hopen] at hadd
    split at hadd
    · cases hadd
    · next hadd' =>
      obtain ⟨rfl, rfl⟩ := EStateM.Result.ok.inj hadd
      rw [← (load_eq_ok hload).2.2, Option.map_some, (hnewcomer.added hc hadd').2.2]

/-- A name without a resident is opened without fail if it can be loaded and a slot is free. -/
theorem exists_openNamed (hc : s.cache.Consistent s.pool)
    (habsent : s.cache.getByName? name = none) (hfree : s.cache.freeSlot? ≠ none)
    {record? : Option Record} (hload : load name s = .ok record? t)
    (hname : ∀ record, record? = some record → record.name = name) :
    ∃ place? u, openNamed name s = .ok place? u := by
  -- The load does not fail, and with a free slot the newcomer is taken in.
  rcases openNamed_cases_value name s with ⟨place, u, _, hopen, _⟩ |
    ⟨_, ⟨e, u, hfails, _⟩ | ⟨u, _, hnone⟩ | ⟨record, u, hload', hnewcomer, hadd⟩⟩
  · exact ⟨_, _, hopen⟩
  · rw [hload] at hfails
    cases hfails
  · exact ⟨_, _, hnone⟩
  · rw [hload] at hload'
    obtain ⟨rfl, _⟩ := EStateM.Result.ok.inj hload'
    have habsent' := (hc.getByName?_eq_none_iff name).mp habsent
    rw [← hname record rfl] at habsent'
    obtain ⟨evicted?, v, hadd'⟩ := hnewcomer.exists_add hc habsent' hfree
    rw [hadd'] at hadd
    exact ⟨_, _, hadd⟩

end Catalog

end XmlIndex
