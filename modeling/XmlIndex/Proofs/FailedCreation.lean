import XmlIndex.Proofs.CatalogNewcomers

/-! # Creations that fail

A creation writes the record of the new collection before it asks the cache to take the
collection in.  As long as the record is not written (`Catalog.Writes`), a failure leaves nothing
behind (`Catalog.LeavesNothing`).  Once it is written a crowded cache may still refuse.  The
record then stays in the store (`Catalog.LeavesRecord`), and a collection of that name cannot be
created from then on, because there is one.  There is no third case
(`Catalog.Reached.create_leavesNothing_iff`). -/

namespace XmlIndex

namespace Catalog

variable {μ : Type} {s t u v : Catalog μ} {name : String} {id : CollectionId} {now : Timestamp}
  {e : Error}

/-- Slots, maps, values and the collections in memory are as they were; a collection that was not
taken in may have come into memory. -/
structure LeavesNothing (t s : Catalog μ) : Prop where
  slots : t.cache.SameSlots s.cache
  pool : ∀ place < s.pool.size, t.pool.get place = s.pool.get place
  value? : ∀ key, t.host.store.value? key = s.host.store.value? key

/-- The record of a collection that was not taken in is in the store, where there was none under
its name; all else is as it was. -/
structure LeavesRecord (record : Record) (e : Error) (t s : Catalog μ) : Prop where
  crowded : Crowded s e
  slots : t.cache.SameSlots s.cache
  pool : ∀ place < s.pool.size, t.pool.get place = s.pool.get place
  before : s.host.value? record.name = none
  value? : ∀ key, t.host.store.value? key =
    if key = Record.key record.name then some record.encode else s.host.store.value? key

/-- There is a resident or a value with the name. -/
def Knows (s : Catalog μ) (name : String) : Prop :=
  (s.cache.getByName? name).isSome = true ∨ (s.host.value? name).isSome = true

/-- The bytes of the record are under the name. -/
theorem LeavesRecord.after {record : Record} (h : LeavesRecord record e t s) :
    t.host.value? record.name = some record.encode := by
  rw [Ground.value?, h.value?, if_pos rfl]

section Source

variable [SlotSource μ]

/-! ## How a creation fails -/

/-- A creation that fails before its record is written leaves nothing behind. -/
theorem create_leavesNothing (hwrites : ¬ Writes (newRecord id name now) s)
    (hcreate : create id name now s = .error e t) : LeavesNothing t s := by
  obtain ⟨e', t', hfails, hcache, hpool, hvalue⟩ := create_of_not_writes hwrites
  rw [hcreate] at hfails
  obtain ⟨rfl, rfl⟩ := EStateM.Result.error.inj hfails
  refine ⟨?_, hpool, hvalue⟩
  rw [hcache]
  exact ⟨rfl, rfl, rfl⟩

/-- A creation that fails although its record is written was refused by the cache, and leaves the
record. -/
theorem create_leavesRecord [LawfulSlotSource μ] (hc : s.cache.Consistent s.pool)
    (hwrites : Writes (newRecord id name now) s) (hcreate : create id name now s = .error e t) :
    LeavesRecord (newRecord id name now) e t s := by
  obtain ⟨u, hannounced, hadd⟩ := create_of_writes hc hwrites
  rw [hcreate] at hadd
  -- All that is left to fail is the cache.
  split at hadd
  · next hrefused =>
    obtain ⟨rfl, rfl⟩ := EStateM.Result.error.inj hadd
    obtain ⟨hcrowded, hslots, hpool, hvalue⟩ :=
      hannounced.toNewcomer.add_eq_error hc hannounced.absent hrefused
    exact ⟨hcrowded, hslots, hpool, hannounced.before,
      fun key => (hvalue key).trans (hannounced.value? key)⟩
  · cases hadd

/-! ## Creating again -/

/-- Once it is known whether there is a collection of the name, one that exists is the cause of a
failure exactly if there is a resident or a value. -/
theorem create_eq_exists_iff_knows (id : CollectionId) (name : String) (now : Timestamp)
    {known : Bool} (hknown : isKnown name s = .ok known t) :
    (∃ u, create id name now s = .error (.collectionExists name) u) ↔ Knows s name := by
  have hmeans := (isKnown_eq_ok hknown).2
  rw [create_eq_exists_iff id name now hknown, Knows, ← Bool.or_eq_true, ← hmeans]
  rcases isKnown_cases name s with ⟨t', hknown', _⟩ | ⟨e, t', hknown', _⟩
  · rw [hknown] at hknown'
    rw [(EStateM.Result.ok.inj hknown').1]
  · rw [hknown] at hknown'
    cases hknown'

omit [SlotSource μ] in
/-- What is known depends on slots and values only. -/
theorem knows_congr (hslots : t.cache.SameSlots s.cache)
    (hvalue : t.host.value? name = s.host.value? name) : Knows t name ↔ Knows s name := by
  rw [Knows, hslots.getByName?, hvalue, Knows]

/-- If a creation fails, nothing is left behind exactly if its record was not written; else the
cache is crowded and the record stays.  From then on a collection of the name is refused as one
that exists if there was one before, or else on account of that record, whatever becomes of the
cause of the failure. -/
theorem Reached.create_leavesNothing_iff [LawfulSlotSource μ] (h : Reached s)
    (hcreate : create id name now s = .error e t) :
    (LeavesNothing t s ↔ ¬ Writes (newRecord id name now) s) ∧
      (Writes (newRecord id name now) s → LeavesRecord (newRecord id name now) e t s) ∧
      ∀ u, SameHoldings u t → ∀ known v, isKnown name u = .ok known v → ∀ id' now',
        ((∃ w, create id' name now' u = .error (.collectionExists name) w) ↔
          Knows s name ∨ Writes (newRecord id name now) s) := by
  -- A later creation sees the names that the failed one has left, and nothing else of it.
  have hagain : ∀ u, SameHoldings u t → ∀ known v, isKnown name u = .ok known v → ∀ id' now',
      ((∃ w, create id' name now' u = .error (.collectionExists name) w) ↔ Knows t name) :=
    fun u hu known v hknown id' now' =>
      (create_eq_exists_iff_knows id' name now' hknown).trans (knows_congr hu.slots (hu.value? _))
  by_cases hwrites : Writes (newRecord id name now) s
  · have hleaves := create_leavesRecord h.consistent hwrites hcreate
    -- The record was written, so there is one where there was none.
    have hafter : t.host.value? name = some (newRecord id name now).encode := hleaves.after
    have hbefore : s.host.value? name = none := hleaves.before
    refine ⟨iff_of_false (fun hnothing => ?_) (not_not_intro hwrites), fun _ => hleaves,
      fun u hu known v hknown id' now' => (hagain u hu known v hknown id' now').trans ?_⟩
    · have hsame : t.host.value? name = s.host.value? name := hnothing.value? _
      rw [hafter, hbefore] at hsame
      cases hsame
    · refine iff_of_true (.inr ?_) (.inr hwrites)
      rw [hafter]
      rfl
  -- Without a record written, all names are as they were.
  · have hleaves := create_leavesNothing hwrites hcreate
    refine ⟨iff_of_true hleaves hwrites, fun hwritten => absurd hwritten hwrites,
      fun u hu known v hknown id' now' => (hagain u hu known v hknown id' now').trans ?_⟩
    rw [knows_congr hleaves.slots (hleaves.value? _), or_iff_left hwrites]

end Source

/-! ## One slot in use -/

/-- The catalog with a collection pinned or not. -/
def withPin (s : Catalog μ) (place : Pool.Place) (pinned : Bool) : Catalog μ :=
  s.withCollection place fun c => { c with pinned }

/-- A pin changes no slot and no value. -/
theorem sameHoldings_withPin (s : Catalog μ) (place : Pool.Place) (pinned : Bool) :
    SameHoldings (s.withPin place pinned) s where
  slots := ⟨rfl, rfl, rfl⟩
  pool := s.pool.extends_modify place (f := fun c => { c with pinned }) rfl rfl
  value? _ := rfl

/-- The only resident is pinned. -/
def pinnedSlot : Catalog (Option Budget) := created.withPin 0 true

/-- A second collection was refused. -/
def refusedSecond : Catalog (Option Budget) := Call.after pinnedSlot (.create 2 "/db/b" .epoch)

/-- Calls lead there. -/
theorem reached_pinnedSlot : Reached pinnedSlot :=
  have hpin := sameHoldings_withPin created 0 true
  reached_created.leadsTo (.others .refl hpin.slots hpin.pool)

/-- The creation is refused, as the only resident cannot leave. -/
theorem create_pinnedSlot :
    create 2 "/db/b" .epoch pinnedSlot = .error (.cacheFull 1) refusedSecond :=
  Action.eq_error_of_outcomeOf (by decide +kernel)

/-- The record of the second collection could be written. -/
theorem writes_pinnedSlot : Writes (newRecord 2 "/db/b" .epoch) pinnedSlot :=
  ⟨_, _, Action.eq_ok_of_outcomeOf (by decide +kernel),
    Action.eq_ok_of_outcomeOf (by decide +kernel)⟩

/-- So the creation leaves a record behind. -/
theorem create_pinnedSlot_leaves :
    Reached pinnedSlot ∧ create 2 "/db/b" .epoch pinnedSlot = .error (.cacheFull 1) refusedSecond ∧
      ¬ LeavesNothing refusedSecond pinnedSlot ∧
      LeavesRecord (newRecord 2 "/db/b" .epoch) (.cacheFull 1) refusedSecond pinnedSlot := by
  obtain ⟨hnothing, hrecord, _⟩ :=
    reached_pinnedSlot.create_leavesNothing_iff create_pinnedSlot
  exact ⟨reached_pinnedSlot, create_pinnedSlot, fun h => hnothing.mp h writes_pinnedSlot,
    hrecord writes_pinnedSlot⟩

/-- Once the resident is pinned no more the cache could take the second collection in, but now it
is refused because it exists. -/
theorem create_unpinned_exists :
    Reached pinnedSlot ∧ create 2 "/db/b" .epoch pinnedSlot = .error (.cacheFull 1) refusedSecond ∧
      pinnedSlot.host.value? "/db/b" = none ∧
      refusedSecond.host.value? "/db/b" = some (newRecord 2 "/db/b" .epoch).encode ∧
      ((refusedSecond.withPin 0 false).pool.get 0).mayLeave = true ∧
      Action.outcomeOf (create 2 "/db/b" .epoch (refusedSecond.withPin 0 false)) =
        .error (.collectionExists "/db/b") :=
  ⟨reached_pinnedSlot, create_pinnedSlot, by decide +kernel, by decide +kernel, by decide +kernel,
    by decide +kernel⟩

end Catalog

end XmlIndex
