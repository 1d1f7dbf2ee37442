import XmlIndex.Proofs.CacheRuns
import XmlIndex.Proofs.CatalogSteps

/-! # Agreement of memory and store

The record of a name is that of the resident with the name, or else the stored one
(`Catalog.record?`).  Memory and store agree (`Catalog.Agrees`) if clean residents are stored as
they are, and if every record in memory and store has the name it is found under and is read
back when it is written.

The moves of the cache keep the agreement and change the record of no name
(`Catalog.Kept`): a resident that leaves is clean by then, so its record goes on in the store.
The same holds for a resize, and for `add` if what comes in is what is stored. -/

namespace XmlIndex

namespace Catalog

variable {μ : Type}

/-- The record of a name: that of the resident with the name, or else the stored one. -/
def record? (s : Catalog μ) (name : String) : Option Record :=
  match s.cache.getByName? name with
  | some place => some (s.pool.get place).record
  | none => s.host.stored? name

/-- The record of a collection has its name and is read back, and while the collection is clean
it is stored. -/
structure Faithful (s : Catalog μ) (place : Pool.Place) : Prop where
  name : (s.pool.get place).record.name = (s.pool.get place).name
  readsBack : (s.pool.get place).record.ReadsBack
  stored? : (s.pool.get place).dirty = false →
    s.host.stored? (s.pool.get place).name = some (s.pool.get place).record

/-- Memory and store agree. -/
structure Agrees (s : Catalog μ) : Prop where
  consistent : s.cache.Consistent s.pool
  faithful : ∀ place ∈ s.cache.residents, Faithful s place
  stored? : ∀ name record, s.host.stored? name = some record →
    record.name = name ∧ record.ReadsBack

/-- The catalogs have the same slots, the same records in memory and store, and the same
collections with changes; more collections may be in memory. -/
structure Alike (t s : Catalog μ) : Prop where
  slots : t.cache.SameSlots s.cache
  pool : t.pool.Extends s.pool
  record : ∀ place < s.pool.size, (t.pool.get place).record = (s.pool.get place).record
  dirty : ∀ place < s.pool.size, (t.pool.get place).dirty = (s.pool.get place).dirty
  stored? : ∀ name, t.host.stored? name = s.host.stored? name

/-- Memory and store agree, and every name has the record it had. -/
structure Kept (t s : Catalog μ) : Prop where
  agrees : Agrees t
  record? : ∀ name, record? t name = record? s name

variable {s t u : Catalog μ} {place other : Pool.Place} {slot : Nat} {incoming : Collection}

/-- What two steps keep, both together keep. -/
theorem Kept.trans (h' : Kept u t) (h : Kept t s) : Kept u s :=
  ⟨h'.agrees, fun name => (h'.record? name).trans (h.record? name)⟩

/-- Doing nothing keeps the agreement. -/
theorem Agrees.kept (h : Agrees s) : Kept s s := ⟨h, fun _ => rfl⟩

/-- Catalogs that differ in what is not looked at are alike. -/
theorem Untouched.alike (h : Untouched t s) : Alike t s where
  slots := by rw [h.cache]; exact ⟨rfl, rfl, rfl⟩
  pool := by rw [h.pool]; exact .refl s.pool
  record place _ := by rw [h.pool]
  dirty place _ := by rw [h.pool]
  stored? := h.stored?

/-! ## Records of names -/

/-- The record of a resident is that of its name. -/
theorem Agrees.record?_of_resident (h : Agrees s) (hplace : place ∈ s.cache.residents) :
    record? s (s.pool.get place).name = some (s.pool.get place).record := by
  rw [record?, (h.consistent.getByName?_eq_some_iff _ _).mpr ⟨hplace, rfl⟩]

/-- A name that no resident has has the stored record. -/
theorem Agrees.record?_of_absent (h : Agrees s) {name : String}
    (hname : ∀ place ∈ s.cache.residents, (s.pool.get place).name ≠ name) :
    record? s name = s.host.stored? name := by
  rw [record?, (h.consistent.getByName?_eq_none_iff name).mpr hname]

/-- A resident has the name, or the store decides. -/
theorem Agrees.record?_cases (h : Agrees s) (name : String) :
    (∃ place ∈ s.cache.residents, (s.pool.get place).name = name ∧
      record? s name = some (s.pool.get place).record) ∨
    (∀ place ∈ s.cache.residents, (s.pool.get place).name ≠ name) ∧
      record? s name = s.host.stored? name := by
  -- A resident goes before the store.
  by_cases hname : ∃ place ∈ s.cache.residents, (s.pool.get place).name = name
  · obtain ⟨place, hplace, rfl⟩ := hname
    exact .inl ⟨place, hplace, rfl, h.record?_of_resident hplace⟩
  · have habsent : ∀ place ∈ s.cache.residents, (s.pool.get place).name ≠ name :=
      fun place hplace heq => hname ⟨place, hplace, heq⟩
    exact .inr ⟨habsent, h.record?_of_absent habsent⟩

/-- A name has one resident. -/
theorem Agrees.eq_of_name (h : Agrees s) (hplace : place ∈ s.cache.residents)
    (hother : other ∈ s.cache.residents)
    (hname : (s.pool.get other).name = (s.pool.get place).name) : other = place :=
  h.consistent.eq_of_name hplace hother hname

/-- A resident has its place in memory. -/
theorem Agrees.lt_size (h : Agrees s) (hplace : place ∈ s.cache.residents) :
    place < s.pool.size := by
  obtain ⟨slot, hslot⟩ := Cache.mem_residents_iff.mp hplace
  exact h.consistent.known slot place hslot

/-! ## Nothing of note -/

/-- What is faithful stays so in a catalog that is alike. -/
theorem Faithful.alike (h : Faithful s place) (hplace : place < s.pool.size) (ha : Alike t s) :
    Faithful t place := by
  refine ⟨?_, ?_, fun hdirty => ?_⟩
  · rw [ha.record place hplace, ha.pool.name place hplace, h.name]
  · rw [ha.record place hplace]
    exact h.readsBack
  · rw [ha.dirty place hplace] at hdirty
    rw [ha.pool.name place hplace, ha.stored?, ha.record place hplace, h.stored? hdirty]

/-- Alike catalogs have the same residents. -/
theorem Alike.mem_residents_iff (ha : Alike t s) :
    place ∈ t.cache.residents ↔ place ∈ s.cache.residents := by
  rw [Cache.residents, ha.slots.slots, Cache.residents]

/-- An alike catalog agrees as well. -/
theorem Agrees.alike (h : Agrees s) (ha : Alike t s) : Kept t s := by
  have ht : Agrees t := by
    refine ⟨h.consistent.congr ha.slots.slots ha.slots.keys ha.slots.names ha.pool,
      fun place hplace => ?_, fun name record hrecord => ?_⟩
    · rw [ha.mem_residents_iff] at hplace
      exact (h.faithful place hplace).alike (h.lt_size hplace) ha
    · rw [ha.stored?] at hrecord
      exact h.stored? name record hrecord
  refine ⟨ht, fun name => ?_⟩
  -- A name of a resident has the resident's record in both, and any other name the stored one.
  rcases h.record?_cases name with ⟨place, hplace, rfl, hrecord⟩ | ⟨habsent, hrecord⟩
  · rw [hrecord, ← ha.pool.name place (h.lt_size hplace),
      ht.record?_of_resident (ha.mem_residents_iff.mpr hplace), ha.record place (h.lt_size hplace)]
  · rw [hrecord, ht.record?_of_absent, ha.stored?]
    intro place hplace
    rw [ha.mem_residents_iff] at hplace
    rw [ha.pool.name place (h.lt_size hplace)]
    exact habsent place hplace

/-! ## Saving -/

namespace Saved

variable (hsaved : Saved place t s)

include hsaved

/-- Saving changes no record in memory. -/
theorem sameUpToUse : t.pool.SameUpToUse s.pool := by
  rw [hsaved.pool]
  exact s.pool.sameUpToUse_modify place fun c => ⟨_, _, _, rfl⟩

/-- What is saved is clean. -/
theorem dirty (hplace : place < s.pool.size) : (t.pool.get place).dirty = false := by
  rw [hsaved.pool, Pool.get_modify, if_pos ⟨rfl, hplace⟩]
  rfl

/-- The other collections are as clean as they were. -/
theorem dirty_of_ne (hother : other ≠ place) :
    (t.pool.get other).dirty = (s.pool.get other).dirty := by
  rw [hsaved.pool, Pool.get_modify_of_ne hother]

/-- A clean collection stays clean. -/
theorem clean (hother : (s.pool.get other).dirty = false) : (t.pool.get other).dirty = false := by
  rw [hsaved.pool, Pool.get_modify]
  split
  · rfl
  · exact hother

/-- Saving the only collection with a name puts its record in place of that of the name. -/
theorem agrees (h : Agrees s) (hname : (s.pool.get place).record.name = (s.pool.get place).name)
    (hback : (s.pool.get place).record.ReadsBack)
    (halone : ∀ other ∈ s.cache.residents,
      (s.pool.get other).name = (s.pool.get place).name → other = place) :
    Agrees t ∧ ∀ name, record? t name =
      if name = (s.pool.get place).name then some (s.pool.get place).record
      else record? s name := by
  have hpool := hsaved.sameUpToUse
  have ht : Agrees t := by
    refine ⟨?_, fun other hother => ⟨?_, ?_, fun hdirty => ?_⟩, fun name record hrecord => ?_⟩
    · rw [hsaved.cache]
      exact h.consistent.of_extends hpool.toExtends
    · rw [hsaved.cache] at hother
      rw [hpool.record, hpool.name, (h.faithful other hother).name]
    · rw [hsaved.cache] at hother
      rw [hpool.record]
      exact (h.faithful other hother).readsBack
    · rw [hsaved.cache] at hother
      rw [hpool.name, hpool.record, hsaved.stored?]
      -- The one that is saved is stored now; the stored records of the others are as they were.
      split
      · next heq => rw [halone other hother heq]
      · next hne =>
        have hother' : other ≠ place := fun heq => hne (by rw [heq])
        rw [hsaved.dirty_of_ne hother'] at hdirty
        exact (h.faithful other hother).stored? hdirty
    · rw [hsaved.stored?] at hrecord
      split at hrecord
      · next heq =>
        obtain rfl := Option.some.inj hrecord
        -- The record that is stored now is under its own name.
        exact ⟨hname.trans heq.symm, hback⟩
      · exact h.stored? name record hrecord
  refine ⟨ht, fun name => ?_⟩
  -- A resident is the one that is saved exactly if it has the name.
  rcases h.record?_cases name with ⟨other, hother, rfl, hrecord⟩ | ⟨habsent, hrecord⟩
  · have hother' : other ∈ t.cache.residents := by rwa [hsaved.cache]
    have htrecord := ht.record?_of_resident hother'
    rw [hpool.name, hpool.record] at htrecord
    rw [htrecord, hrecord]
    split
    · next heq => rw [halone other hother heq]
    · rfl
  · rw [hrecord, ht.record?_of_absent, hsaved.stored?]
    intro other hother
    rw [hsaved.cache] at hother
    rw [hpool.name]
    exact habsent other hother

/-- Saving a resident changes the record of no name. -/
theorem kept (h : Agrees s) (hplace : place ∈ s.cache.residents) : Kept t s := by
  -- What is written is the record that the name had before.
  have hfaithful := h.faithful place hplace
  obtain ⟨ht, hrecord⟩ := hsaved.agrees h hfaithful.name hfaithful.readsBack
    fun other hother => h.eq_of_name hplace hother
  refine ⟨ht, fun name => ?_⟩
  rw [hrecord]
  split
  · next heq => rw [heq, h.record?_of_resident hplace]
  · rfl

end Saved

/-! ## Fewer residents -/

section Fewer

variable (h : Agrees s) (hc : t.cache.Consistent t.pool) (hpool : t.pool = s.pool)
  (hhost : t.host = s.host) (hsubset : ∀ place ∈ t.cache.residents, place ∈ s.cache.residents)

include h hc hpool hhost hsubset

/-- Residents may leave. -/
theorem Agrees.fewer : Agrees t := by
  refine ⟨hc, fun place hplace => ?_, fun name record hrecord => ?_⟩
  · have hfaithful := h.faithful place (hsubset place hplace)
    refine ⟨?_, ?_, fun hdirty => ?_⟩
    · rw [hpool, hfaithful.name]
    · rw [hpool]
      exact hfaithful.readsBack
    · rw [hpool] at hdirty
      rw [hpool, hhost, hfaithful.stored? hdirty]
  · rw [hhost] at hrecord
    exact h.stored? name record hrecord

/-- A name whose resident stays or is clean keeps its record. -/
theorem Agrees.record?_fewer {name : String}
    (hleft : ∀ place ∈ s.cache.residents, (s.pool.get place).name = name →
      place ∈ t.cache.residents ∨ (s.pool.get place).dirty = false) :
    record? t name = record? s name := by
  have ht := h.fewer hc hpool hhost hsubset
  rcases h.record?_cases name with ⟨place, hplace, rfl, hrecord⟩ | ⟨habsent, hrecord⟩
  · rw [hrecord]
    -- One that has left was clean, so what is stored is its record.
    by_cases hstays : place ∈ t.cache.residents
    · have htrecord := ht.record?_of_resident hstays
      rwa [hpool] at htrecord
    · have hdirty := (hleft place hplace rfl).resolve_left hstays
      rw [ht.record?_of_absent, hhost, (h.faithful place hplace).stored? hdirty]
      intro other hother heq
      rw [hpool] at heq
      exact hstays (h.eq_of_name hplace (hsubset other hother) heq ▸ hother)
  · rw [hrecord, ht.record?_of_absent, hhost]
    intro place hplace
    rw [hpool]
    exact habsent place (hsubset place hplace)

/-- Clean residents may leave. -/
theorem Agrees.kept_fewer (hleft : ∀ place ∈ s.cache.residents,
    place ∈ t.cache.residents ∨ (s.pool.get place).dirty = false) : Kept t s :=
  ⟨h.fewer hc hpool hhost hsubset, fun _ =>
    h.record?_fewer hc hpool hhost hsubset fun place hplace _ => hleft place hplace⟩

end Fewer

/-- A clean resident may leave its slot. -/
theorem Agrees.vacate (h : Agrees s) (hslot : s.cache.resident? slot = some place)
    (hclean : (s.pool.get place).dirty = false) : Kept (s.vacate slot place) s := by
  have hc : (s.vacate slot place).cache.Consistent s.pool := h.consistent.vacated hslot
  have hmem : ∀ {other}, other ∈ (s.vacate slot place).cache.residents ↔
      other ∈ s.cache.residents ∧ other ≠ place := h.consistent.mem_residents_vacate hslot
  refine h.kept_fewer hc rfl rfl (fun other hother => (hmem.mp hother).1) fun other hother => ?_
  -- The one that leaves is clean, so the store has its record.
  by_cases heq : other = place
  · rw [heq]
    exact .inr hclean
  · exact .inl (hmem.mpr ⟨hother, heq⟩)

end Catalog

end XmlIndex
