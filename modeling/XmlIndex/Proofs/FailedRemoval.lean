import XmlIndex.Proofs.CatalogNewcomers

/-! # Removals that fail

A removal takes the resident of the name out of its slot, without writing it back, before it asks
the store to remove the record.  If that fails the catalog has forgotten the resident
(`Catalog.Forgets`): all values are as they were, and so is the record of every other name, but
the name now has the record that is stored.  So nothing is lost exactly if there was no resident
of the name, or its record was the stored one (`Catalog.Reached.remove_forgets`). -/

namespace XmlIndex

namespace Catalog

variable {μ : Type} {s t u : Catalog μ} {place : Pool.Place} {name other : String} {e : Error}

/-- Values and collections in memory are as they were, and the residents are those with other
names. -/
structure Forgets (name : String) (t s : Catalog μ) : Prop where
  value? : ∀ key, t.host.store.value? key = s.host.store.value? key
  pool : t.pool = s.pool
  residents : ∀ place, place ∈ t.cache.residents ↔
    place ∈ s.cache.residents ∧ (s.pool.get place).name ≠ name

/-! ## The state after the failure -/

/-- A resident that was taken out leaves its slot free. -/
theorem freeSlot?_vacate {slot : Nat} (hslot : s.cache.resident? slot = some place) :
    (s.vacate slot place).cache.freeSlot? ≠ none := by
  intro hfull
  have hlt : slot < (s.vacate slot place).cache.capacity := by
    have hlt := Cache.lt_capacity hslot
    simpa [Hosted.vacate, Hosted.withCache, Cache.vacate, Cache.capacity] using hlt
  obtain ⟨other, hother⟩ := Cache.freeSlot?_eq_none_iff.mp hfull slot hlt
  exact (Cache.resident?_vacate_eq_some_iff.mp hother).1 rfl

section Source

variable [SlotSource μ]

/-- A removal that fails forgets the resident, whose slot is then free. -/
theorem remove_eq_error (hc : s.cache.Consistent s.pool) (h : remove name s = .error e t) :
    Forgets name t s ∧ (s.cache.getByName? name ≠ none → t.cache.freeSlot? ≠ none) := by
  rcases remove_eq hc name with ⟨habsent, hremove⟩ | ⟨slot, place, hslot, rfl, hremove⟩
  · rw [hremove] at h
    have hsame := removeStored_eq_error h
    refine ⟨⟨hsame.value?, hsame.pool, fun place => ?_⟩, fun hfound => absurd habsent hfound⟩
    rw [hsame.cache]
    exact (and_iff_left_of_imp ((hc.getByName?_eq_none_iff name).mp habsent place)).symm
  · rw [hremove] at h
    have hsame := removeStored_eq_error h
    refine ⟨⟨hsame.value?, hsame.pool, fun other => ?_⟩, fun _ => ?_⟩
    -- No other resident has the name, so that the one that has left is the one with the name.
    · rw [hsame.cache]
      refine (hc.mem_residents_vacate hslot).trans (and_congr_right fun hother => not_congr ?_)
      refine ⟨fun heq => by rw [heq], fun heq => ?_⟩
      exact hc.eq_of_name (Cache.mem_residents hslot) hother heq
    · rw [hsame.cache]
      exact freeSlot?_vacate hslot

namespace Forgets

variable (h : Forgets name t s)

include h

omit [SlotSource μ] in
/-- Nothing is found under the name any more. -/
theorem getByName?_self (ht : t.cache.Consistent t.pool) : t.cache.getByName? name = none := by
  refine (ht.getByName?_eq_none_iff name).mpr fun place hplace => ?_
  rw [h.pool]
  exact ((h.residents place).mp hplace).2

omit [SlotSource μ] in
/-- Under other names the same is found. -/
theorem getByName?_of_ne (hs : s.cache.Consistent s.pool) (ht : t.cache.Consistent t.pool)
    (hne : other ≠ name) : t.cache.getByName? other = s.cache.getByName? other := by
  refine Option.ext fun place => ?_
  rw [ht.getByName?_eq_some_iff, hs.getByName?_eq_some_iff, h.pool, h.residents, and_assoc]
  refine and_congr_right fun _ => and_iff_right_of_imp ?_
  rintro rfl
  exact hne

omit [SlotSource μ] in
/-- The stored records are as they were. -/
theorem stored? (other : String) : t.host.stored? other = s.host.stored? other :=
  Ground.stored?_congr h.value? other

omit [SlotSource μ] in
/-- The name has the stored record. -/
theorem record?_self (ht : t.cache.Consistent t.pool) : record? t name = s.host.stored? name := by
  rw [record?, h.getByName?_self ht, h.stored?]

omit [SlotSource μ] in
/-- The other names have the records they had. -/
theorem record?_of_ne (hs : s.cache.Consistent s.pool) (ht : t.cache.Consistent t.pool)
    (hne : other ≠ name) : record? t other = record? s other := by
  rw [record?, h.getByName?_of_ne hs ht hne, h.pool, h.stored?, record?]

end Forgets

/-! ## Opening after the failure -/

/-- If a removal fails, all values and the records of all other names stay, and the name has the
stored record from then on; that is the one it had exactly if no resident differs from it.
Whatever becomes of the cause of the failure, the stored record is what is opened next; and a
collection that was a resident is opened without fail as soon as its record can be loaded. -/
theorem Reached.remove_forgets (h : Reached s) (hremove : remove name s = .error e t) :
    Forgets name t s ∧ record? t name = s.host.stored? name ∧
      (∀ other, other ≠ name → record? t other = record? s other) ∧
      (record? t name = record? s name ↔ ∀ place ∈ s.cache.residents,
        (s.pool.get place).name = name →
          s.host.stored? name = some (s.pool.get place).record) ∧
      ∀ u, SameHoldings u t →
        (∀ place? v, openNamed name u = .ok place? v →
          place?.map (fun place => (v.pool.get place).record) = record? t name) ∧
        (s.cache.getByName? name ≠ none → ∀ record? v, load name u = .ok record? v →
          (∀ record, record? = some record → record.name = name) →
            ∃ place? w, openNamed name u = .ok place? w) := by
  have hs := h.consistent
  have ht : t.cache.Consistent t.pool := by
    have hcontinues := continues_remove hs name
    rw [hremove] at hcontinues
    exact hcontinues.consistent hs
  -- The resident has left before the removal failed.
  obtain ⟨hforgets, hfree⟩ := remove_eq_error hs hremove
  have hrecord := hforgets.record?_self ht
  refine ⟨hforgets, hrecord, fun other => hforgets.record?_of_ne hs ht, ?_, fun u hu => ?_⟩
  · rw [hrecord, record?]
    -- Without a resident of the name nothing has been forgotten.
    cases hfound : s.cache.getByName? name with
    | none =>
      have habsent := (hs.getByName?_eq_none_iff name).mp hfound
      exact iff_of_true rfl fun place hplace hname => absurd hname (habsent place hplace)
    | some place =>
      have hresident := (hs.getByName?_eq_some_iff name place).mp hfound
      refine ⟨fun heq other hother hname => ?_, fun hall => hall place hresident.1 hresident.2⟩
      have hother := (hs.getByName?_eq_some_iff name other).mpr ⟨hother, hname⟩
      rw [hfound] at hother
      rw [heq, Option.some.inj hother]
  -- The name has no resident any more, so it is opened with what is stored.
  · have huc := hu.consistent ht
    have habsent : u.cache.getByName? name = none := by
      rw [hu.slots.getByName?, hforgets.getByName?_self ht]
    refine ⟨fun place? v hopen => ?_, fun hfound record? v hload hname => ?_⟩
    · rw [openNamed_eq_ok_of_absent huc habsent hopen, hrecord, ← hforgets.stored?]
      exact Ground.stored?_congr hu.value? name
    · refine exists_openNamed huc habsent ?_ hload hname
      rw [Cache.freeSlot?, hu.slots.slots]
      exact hfree hfound

end Source

/-! ## A changed resident -/

/-- The catalog over a store that is write-protected or not. -/
def withReadOnly (s : Catalog μ) (readOnly : Bool) : Catalog μ :=
  { s with host := { s.host with store := { s.host.store with readOnly } } }

/-- Write protection changes no slot and no value. -/
theorem sameHoldings_withReadOnly (s : Catalog μ) (readOnly : Bool) :
    SameHoldings (s.withReadOnly readOnly) s :=
  ⟨⟨rfl, rfl, rfl⟩, .refl s.pool, fun _ => rfl⟩

/-- The only resident was changed but not saved, and the store is write-protected. -/
def protectedEdit : Catalog (Option Budget) :=
  (created.change 0 fun _ => editedRecord).withReadOnly true

/-- The resident could not be removed. -/
def failedRemoval : Catalog (Option Budget) := Call.after protectedEdit (.remove "/db/a")

/-- Calls lead there. -/
theorem reached_protectedEdit : Reached protectedEdit :=
  reached_created.leadsTo (.others .refl ⟨rfl, rfl, rfl⟩ (extends_change created 0 _))

/-- The removal is refused by the store. -/
theorem remove_protectedEdit :
    remove "/db/a" protectedEdit = .error (.storeReadOnly .remove "data") failedRemoval :=
  Action.eq_error_of_outcomeOf (by decide +kernel)

/-- The resident is forgotten, and its name can be opened as soon as the store can be written. -/
theorem remove_protectedEdit_forgets :
    Reached protectedEdit ∧
      remove "/db/a" protectedEdit = .error (.storeReadOnly .remove "data") failedRemoval ∧
      Forgets "/db/a" failedRemoval protectedEdit ∧
      record? failedRemoval "/db/a" = protectedEdit.host.stored? "/db/a" ∧
      ∃ place? u, openNamed "/db/a" (failedRemoval.withReadOnly false) = .ok place? u := by
  obtain ⟨hforgets, hrecord, _, _, hopens⟩ :=
    reached_protectedEdit.remove_forgets remove_protectedEdit
  -- The store still has the record as it was when the collection was created.
  have hload : load "/db/a" (failedRemoval.withReadOnly false) =
      .ok (some (newRecord 1 "/db/a" .epoch))
        (Action.stateOf (load "/db/a" (failedRemoval.withReadOnly false))) :=
    Action.eq_ok_of_outcomeOf (by decide +kernel)
  refine ⟨reached_protectedEdit, remove_protectedEdit, hforgets, hrecord, ?_⟩
  refine (hopens _ (sameHoldings_withReadOnly _ _)).2 (by decide +kernel) _ _ hload ?_
  rintro record ⟨⟩
  rfl

/-- A removal that fails loses what was changed: once the store can be written again, the
collection is opened as it was made. -/
theorem remove_protectedEdit_loses :
    Reached protectedEdit ∧
      remove "/db/a" protectedEdit = .error (.storeReadOnly .remove "data") failedRemoval ∧
      record? protectedEdit "/db/a" = some editedRecord ∧
      ∃ u, openNamed "/db/a" (failedRemoval.withReadOnly false) = .ok (some 1) u ∧
        (u.pool.get 1).record = newRecord 1 "/db/a" .epoch ∧
        newRecord 1 "/db/a" .epoch ≠ editedRecord :=
  ⟨reached_protectedEdit, remove_protectedEdit, by decide +kernel, _,
    Action.eq_ok_of_outcomeOf (by decide +kernel), by decide +kernel, by decide⟩

end Catalog

end XmlIndex
