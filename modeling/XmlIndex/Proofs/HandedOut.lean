import XmlIndex.Proofs.CatalogNewcomers

/-! # What is handed out

What a creation or an opening answers should be what the cache holds under the name
(`Catalog.HandsOut`): then it is also what is opened next, and what is changed in it is written
back.  An opening that finds a resident hands it out.  Else a newcomer is handed out, whether the
cache has taken it in or not: where its key has a resident already, which can only have another
name, nothing comes in.  So what is handed out is what is held exactly if the key was free, and
if the stored record has the name it is stored under (`Catalog.Reached.handsOut_iff`). -/

namespace XmlIndex

namespace Catalog

variable {μ : Type} {s t u v : Catalog μ} {place : Pool.Place} {name : String} {record : Record}

/-- A collection is the one the cache holds under a name.  As long as it is a resident it is what
opening the name answers, and its record is stored when all has been written back, whatever was
changed in it. -/
structure HandsOut [SlotSource μ] (t : Catalog μ) (name : String) (place : Pool.Place) : Prop where
  found : t.cache.getByName? name = some place
  reopened : ∀ u, LeadsTo t u → place ∈ u.cache.residents →
    ∃ v, openNamed name u = .ok (some place) v
  synced : ∀ u, LeadsTo t u → place ∈ u.cache.residents → ∀ f count v,
    sync (u.change place f) = .ok count v →
      v.host.value? name = some (f (u.pool.get place).record).encode

section Source

variable [SlotSource μ]

/-! ## Residents -/

/-- A resident is opened by its name. -/
theorem openNamed_of_found (hfound : s.cache.getByName? name = some place) :
    ∃ t, openNamed name s = .ok (some place) t := by
  rcases openNamed_cases_value name s with ⟨place', t, hfound', hopen, _⟩ | ⟨habsent, _⟩
  · rw [hfound] at hfound'
    obtain rfl := Option.some.inj hfound'
    exact ⟨t, hopen⟩
  · rw [hfound] at habsent
    cases habsent

omit [SlotSource μ] in
/-- What was changed in a resident is stored when all has been written back. -/
theorem value?_of_sync_change (hc : s.cache.Consistent s.pool)
    (hplace : place ∈ s.cache.residents) (f : Record → Record) {count : Nat}
    (h : sync (s.change place f) = .ok count t) :
    t.host.value? (s.pool.get place).name = some (f (s.pool.get place).record).encode := by
  obtain ⟨slot, hslot⟩ := Cache.mem_residents_iff.mp hplace
  have hget := get_change_self (hc.known slot place hslot) f
  -- The change leaves key and name, so the cache stays consistent.
  have hct : (s.change place f).cache.Consistent (s.change place f).pool :=
    hc.of_extends (extends_change s place f)
  have hvalue := value?_of_sync hct h hplace (by rw [hget]; rfl)
  rwa [hget] at hvalue

/-- The resident with a name is what is handed out under it. -/
theorem Reached.handsOut_iff_resident (h : Reached t) :
    HandsOut t name place ↔ place ∈ t.cache.residents ∧ (t.pool.get place).name = name := by
  have hc := h.consistent
  refine ⟨fun hhands => (hc.getByName?_eq_some_iff name place).mp hhands.found, ?_⟩
  rintro ⟨hplace, rfl⟩
  -- Whatever happens later, a collection in memory keeps its name.
  have hlater : ∀ u, LeadsTo t u → (u.pool.get place).name = (t.pool.get place).name := by
    intro u hleads
    obtain ⟨slot, hslot⟩ := Cache.mem_residents_iff.mp hplace
    exact (hleads.continues hc).pool.name place (hc.known slot place hslot)
  refine ⟨(hc.getByName?_eq_some_iff _ _).mpr ⟨hplace, rfl⟩, fun u hleads hstays => ?_,
    fun u hleads hstays f count v hsync => ?_⟩
  · refine openNamed_of_found ?_
    exact ((h.leadsTo hleads).consistent.getByName?_eq_some_iff _ _).mpr ⟨hstays, hlater u hleads⟩
  · rw [← hlater u hleads]
    exact value?_of_sync_change (h.leadsTo hleads).consistent hstays f hsync

/-! ## Newcomers -/

/-- A newcomer is handed out under the name of its record if its key was free. -/
theorem Newcomer.handsOut_iff_free [LawfulSlotSource μ] (h : Newcomer record t s)
    (hs : Reached s) (hu : Reached u)
    {evicted? : Option Pool.Place}
    (hadd : Hosted.add hosting s.pool.size 1 t = .ok evicted? u) :
    HandsOut u name s.pool.size ↔ record.name = name ∧ s.cache.get? record.id.toNat = none := by
  obtain ⟨_, hname, _⟩ := h.added hs.consistent hadd
  rw [hu.handsOut_iff_resident, h.mem_residents_add_iff hs.consistent hadd, hname, and_comm]

/-- A creation that succeeds hands out what the cache holds under the name exactly if no resident
has the number; and so does an opening exactly if a resident has the name, or if the stored record
has it and no resident has its number. -/
theorem Reached.handsOut_iff [LawfulSlotSource μ] (h : Reached s) :
    (∀ id name now place t, create id name now s = .ok place t →
      (HandsOut t name place ↔ s.cache.get? id.toNat = none)) ∧
    ∀ name place t, openNamed name s = .ok (some place) t →
      (HandsOut t name place ↔ s.cache.getByName? name = some place ∨
        s.cache.getByName? name = none ∧ ∃ record, s.host.stored? name = some record ∧
          record.name = name ∧ s.cache.get? record.id.toNat = none) := by
  refine ⟨fun id name now place t hcreate => ?_, fun name place t hopen => ?_⟩
  · have ht : Reached t := by
      have hcall := h.leadsTo (.call .refl (.create id name now))
      rwa [Call.after, hcreate] at hcall
    -- A creation that is answered has written the record.
    by_cases hwrites : Writes (newRecord id name now) s
    · obtain ⟨u, hannounced, hadd⟩ := create_of_writes h.consistent hwrites
      rw [hcreate] at hadd
      split at hadd
      · cases hadd
      · next hadd' =>
        obtain ⟨rfl, rfl⟩ := EStateM.Result.ok.inj hadd
        exact (hannounced.toNewcomer.handsOut_iff_free h ht hadd').trans (and_iff_right rfl)
    · obtain ⟨e, u, hfails, _⟩ := create_of_not_writes hwrites
      rw [hcreate] at hfails
      cases hfails
  · have ht : Reached t := by
      have hcall := h.leadsTo (.call .refl (.openNamed name))
      rwa [Call.after, hopen] at hcall
    rcases openNamed_cases_value name s with ⟨place', u, hfound, hopen', hslots, _⟩ |
      ⟨habsent, ⟨e, u, _, hfails⟩ | ⟨u, _, hnone⟩ | ⟨record, u, hload, hnewcomer, hadd⟩⟩
    · rw [hopen] at hopen'
      obtain ⟨hplace, rfl⟩ := EStateM.Result.ok.inj hopen'
      obtain rfl := Option.some.inj hplace
      -- A resident is handed out again.
      refine iff_of_true (ht.handsOut_iff_resident.mpr ?_) (.inl hfound)
      refine (ht.consistent.getByName?_eq_some_iff _ _).mp ?_
      rw [hslots.getByName?, hfound]
    · rw [hopen] at hfails
      cases hfails
    · rw [hopen] at hnone
      cases (EStateM.Result.ok.inj hnone).1
    -- The stored record may have another name than the one it is stored under.
    · have hstored : some record = s.host.stored? name := (load_eq_ok hload).2.2
      rw [hopen] at hadd
      split at hadd
      · cases hadd
      · next hadd' =>
        obtain ⟨hplace, rfl⟩ := EStateM.Result.ok.inj hadd
        obtain rfl := Option.some.inj hplace
        rw [hnewcomer.handsOut_iff_free h ht hadd', habsent, ← hstored]
        constructor
        · exact fun hfits => .inr ⟨rfl, record, rfl, hfits⟩
        · rintro (hfound | ⟨_, record', hsame, hfits⟩)
          · cases hfound
          · obtain rfl := Option.some.inj hsame
            exact hfits

end Source

/-! ## Two names with one number -/

/-- A second collection was made, with another number. -/
def otherNumber : Catalog (Option Budget) := Call.after created (.create 2 "/db/b" .epoch)

/-- A second collection was made, with the number of the first. -/
def sameNumber : Catalog (Option Budget) := Call.after created (.create 1 "/db/b" .epoch)

/-- The second collection is created. -/
theorem create_otherNumber : create 2 "/db/b" .epoch created = .ok 1 otherNumber :=
  Action.eq_ok_of_outcomeOf (by decide +kernel)

/-- So is the one with the number of the first. -/
theorem create_sameNumber : create 1 "/db/b" .epoch created = .ok 1 sameNumber :=
  Action.eq_ok_of_outcomeOf (by decide +kernel)

/-- With another number the second collection is held, and with the same one it is not. -/
theorem handsOut_otherNumber :
    Reached created ∧ create 2 "/db/b" .epoch created = .ok 1 otherNumber ∧
      HandsOut otherNumber "/db/b" 1 ∧
      create 1 "/db/b" .epoch created = .ok 1 sameNumber ∧ ¬ HandsOut sameNumber "/db/b" 1 := by
  have hcreate := reached_created.handsOut_iff.1
  refine ⟨reached_created, create_otherNumber, ?_, create_sameNumber, ?_⟩
  · exact (hcreate _ _ _ _ _ create_otherNumber).mpr (by decide +kernel)
  · rw [hcreate _ _ _ _ _ create_sameNumber]
    decide +kernel

/-- A second collection with the number of a resident is handed out but not held: the cache does
not know its name, opening the name answers another collection, and what is changed in it is not
written back. -/
theorem create_sameNumber_notHeld :
    Reached created ∧ create 1 "/db/b" .epoch created = .ok 1 sameNumber ∧
      sameNumber.cache.getByName? "/db/b" = none ∧
      (∃ u, openNamed "/db/b" sameNumber = .ok (some 2) u) ∧
      ∃ u, sync (sameNumber.change 1 fun record => { record with documents := ["x.xml"] }) =
          .ok 0 u ∧
        u.host.value? "/db/b" = some (newRecord 1 "/db/b" .epoch).encode :=
  ⟨reached_created, create_sameNumber, by decide +kernel,
    ⟨_, Action.eq_ok_of_outcomeOf (by decide +kernel)⟩,
    _, Action.eq_ok_of_outcomeOf (by decide +kernel), by decide +kernel⟩

end Catalog

end XmlIndex
