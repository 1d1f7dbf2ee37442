import XmlIndex.Proofs.CatalogRuns
import XmlIndex.Proofs.CatalogValues

/-! # Histories of a catalog

A history goes on with calls, successful or not, of any collections with any numbers and names
(`Catalog.LeadsTo`).  In between, others may do what they like: to the collections in memory, as
long as these keep their keys and names, to the store, and to the counts of the cache.  So
records may be changed to anything, be marked clean without being written, or be put into the
store from elsewhere; this is more than a run allows (`Catalog.Run`), and a history need not
keep memory and store in agreement.

Its cache stays consistent (`Catalog.Reached.consistent`), and a collection keeps its place, its
key and its name (`Catalog.LeadsTo.extends`). -/

namespace XmlIndex

namespace Catalog

variable {μ : Type} {s t u : Catalog μ} {place : Pool.Place} {name : String}

/-- The cache is still consistent, and the collections in memory have the keys and the names they
had. -/
structure Continues (t s : Catalog μ) : Prop where
  consistent : s.cache.Consistent s.pool → t.cache.Consistent t.pool
  pool : t.pool.Extends s.pool

/-- A state continues itself. -/
theorem Continues.refl (s : Catalog μ) : Continues s s := ⟨id, .refl s.pool⟩

/-- What continues a continuation continues the state before. -/
theorem Continues.trans (h' : Continues u t) (h : Continues t s) : Continues u s :=
  ⟨h'.consistent ∘ h.consistent, h'.pool.trans h.pool⟩

/-- The states to which calls lead, and whatever else is done, successful or not. -/
inductive LeadsTo [SlotSource μ] (s : Catalog μ) : Catalog μ → Prop
  | refl : LeadsTo s s
  | call {t : Catalog μ} (before : LeadsTo s t) (call : Call) : LeadsTo s (call.after t)
  /-- Others may do what they like, but slots and maps, keys and names stay. -/
  | others {t u : Catalog μ} (before : LeadsTo s t) (slots : u.cache.SameSlots t.cache)
    (pool : u.pool.Extends t.pool) : LeadsTo s u

/-- The states to which calls lead from a catalog without residents over any store. -/
def Reached [SlotSource μ] (s : Catalog μ) : Prop :=
  ∃ store size threshold source, LeadsTo (ofStore store size threshold source) s

/-! ## What is done in a call -/

/-- Where slots and maps stay, the cache stays consistent. -/
theorem continues_of_sameSlots (hslots : t.cache.SameSlots s.cache)
    (hpool : t.pool.Extends s.pool) : Continues t s :=
  ⟨fun hc => hc.congr hslots.slots hslots.keys hslots.names hpool, hpool⟩

/-- What is done in a row continues the state before if each part continues its own. -/
theorem continues_bind {α β : Type} {x : Action (Catalog μ) α} {f : α → Action (Catalog μ) β}
    (hx : Continues (Action.stateOf (x s)) s)
    (hf : ∀ a t, Continues t s → Continues (Action.stateOf (f a t)) t) :
    Continues (Action.stateOf ((x >>= f) s)) s := by
  -- A failing first part ends the whole where it stopped.
  cases h : x s with
  | error e t =>
    rw [h] at hx
    rw [Action.bind_of_error h]
    exact hx
  | ok a t =>
    rw [h] at hx
    rw [Action.bind_of_ok h]
    exact (hf a t hx).trans hx

/-- What leaves cache and collections alone continues the state. -/
theorem SameValues.continues (h : SameValues t s) : Continues t s := by
  refine continues_of_sameSlots ?_ ?_
  · rw [h.cache]
    exact ⟨rfl, rfl, rfl⟩
  · rw [h.pool]
    exact .refl s.pool

/-- Writing a collection leaves the cache alone and the collection with its key and name. -/
theorem Written.continues (h : Written place t s) : Continues t s := by
  refine continues_of_sameSlots ?_ h.sameUpToUse.toExtends
  rw [h.cache]
  exact ⟨rfl, rfl, rfl⟩

/-- Asking whether a name is known continues the state. -/
theorem continues_isKnown (name : String) (s : Catalog μ) :
    Continues (Action.stateOf (isKnown name s)) s := by
  cases h : isKnown name s with
  | ok known t => exact (isKnown_eq_ok h).1.continues
  | error e t => exact (isKnown_eq_error h).continues

/-- Reading a record continues the state. -/
theorem continues_load (name : String) (s : Catalog μ) :
    Continues (Action.stateOf (load name s)) s := by
  cases h : load name s with
  | ok record? t => exact (load_eq_ok h).1.continues
  | error e t => exact (load_eq_error h).continues

/-- Saving a collection continues the state. -/
theorem continues_save (place : Pool.Place) (s : Catalog μ) :
    Continues (Action.stateOf (save place s)) s := by
  cases h : save place s with
  | ok _ t => exact (save_eq_ok h).continues
  | error e t => exact (save_eq_error h).continues

/-- A new collection in memory leaves the others as they are. -/
theorem continues_allocated (s : Catalog μ) (record : Record) : Continues (s.allocated record) s :=
  continues_of_sameSlots ⟨rfl, rfl, rfl⟩ (s.pool.extends_push _)

section Source

variable [SlotSource μ]

/-- A collection that is added comes into the cache consistently. -/
theorem continues_add (hc : s.cache.Consistent s.pool) (hplace : place < s.pool.size)
    (refs : UInt32) : Continues (Action.stateOf (Hosted.add hosting place refs s)) s :=
  ⟨fun _ => Hosted.add_consistent hc hplace refs,
    (Hosted.add_sameUpToUse hosting hc place refs).toExtends⟩

/-- The use of a collection continues the state. -/
theorem continues_touch (key : Nat) (s : Catalog μ) :
    Continues (Action.stateOf (Hosted.touch key s)) s := by
  have hmoves := Hosted.touch_moves hosting default key s
  exact ⟨hmoves.consistent, hmoves.sameUpToUse.toExtends⟩

omit [SlotSource μ] in
/-- Saving changed collections one by one continues the state. -/
theorem continues_saveChanged (places : List Pool.Place) (s : Catalog μ) :
    Continues (Action.stateOf (saveChanged places s)) s := by
  -- Induction on the collections that are left to save.
  induction places generalizing s with
  | nil => exact .refl s
  | cons place places ih =>
    rw [saveChanged, Action.get_bind]
    split
    · exact continues_bind (continues_save place s) fun _ t _ =>
        continues_bind (ih t) fun _ u _ => .refl u
    · exact ih s

/-! ## Calls -/

/-- A creation continues the state, whether it succeeds or not. -/
theorem continues_create (hc : s.cache.Consistent s.pool) (id : CollectionId) (name : String)
    (now : Timestamp) : Continues (Action.stateOf (create id name now s)) s := by
  rw [create]
  refine continues_bind (continues_isKnown name s) fun known t ht => ?_
  cases known with
  | true => exact .refl t
  | false =>
    rw [if_neg Bool.false_ne_true]
    dsimp only
    rw [allocate_bind]
    have hallocated := continues_allocated t (newRecord id name now)
    refine (continues_bind (continues_save _ _) fun _ u hu => ?_).trans hallocated
    -- Up to here the cache was not touched; now the new collection comes into it.
    have hc := (hu.trans (hallocated.trans ht)).consistent hc
    have hplace := Nat.lt_of_lt_of_le (lt_size_allocated t (newRecord id name now)) hu.pool.size_le
    exact continues_bind (continues_add hc hplace 1) fun _ v _ => .refl v

/-- Opening a collection continues the state, whether it succeeds or not. -/
theorem continues_openNamed (hc : s.cache.Consistent s.pool) (name : String) :
    Continues (Action.stateOf (openNamed name s)) s := by
  rw [openNamed, Action.get_bind]
  cases s.cache.getByName? name with
  | some place => exact continues_bind (continues_touch _ s) fun _ t _ => .refl t
  -- Nobody in the cache has the name, so the record is read and a collection made of it.
  | none =>
    refine continues_bind (continues_load name s) fun record? t ht => ?_
    cases record? with
    | none => exact .refl t
    | some record =>
      dsimp only
      rw [allocate_bind]
      have hallocated := continues_allocated t record
      have hc := (hallocated.trans ht).consistent hc
      have hadd := continues_add hc (lt_size_allocated t record) 1
      refine (continues_bind hadd fun _ u _ => ?_).trans hallocated
      exact .refl u

omit [SlotSource μ] in
/-- Removing what is stored under a name continues the state. -/
theorem continues_removeStored (name : String) (s : Catalog μ) :
    Continues (Action.stateOf (removeStored name s)) s := by
  obtain ⟨t, hstate, hcache, hpool, _⟩ := removeStored_cases name s
  rw [hstate]
  refine continues_of_sameSlots ?_ ?_
  · rw [hcache]
    exact ⟨rfl, rfl, rfl⟩
  · rw [hpool]
    exact .refl s.pool

omit [SlotSource μ] in
/-- A resident that leaves its slot takes its key and its name out of the maps. -/
theorem continues_vacate (hc : s.cache.Consistent s.pool) {slot : Nat}
    (hslot : s.cache.resident? slot = some place) : Continues (s.vacate slot place) s :=
  ⟨fun _ => hc.vacated hslot, .refl s.pool⟩

/-- The removal of a collection takes the resident with the name out of its slot first. -/
theorem remove_eq (hc : s.cache.Consistent s.pool) (name : String) :
    (s.cache.getByName? name = none ∧ remove name s = removeStored name s) ∨
      ∃ slot place, s.cache.resident? slot = some place ∧ (s.pool.get place).name = name ∧
        remove name s = removeStored name (s.vacate slot place) := by
  cases hfound : s.cache.getByName? name with
  | none => exact .inl ⟨rfl, remove_of_absent hfound⟩
  | some place =>
    obtain ⟨hplace, rfl⟩ := (hc.getByName?_eq_some_iff _ _).mp hfound
    obtain ⟨slot, hslot⟩ := Cache.mem_residents_iff.mp hplace
    exact .inr ⟨slot, place, hslot, rfl, remove_of_resident hc hslot⟩

/-- A removal continues the state, whether it succeeds or not. -/
theorem continues_remove (hc : s.cache.Consistent s.pool) (name : String) :
    Continues (Action.stateOf (remove name s)) s := by
  rcases remove_eq hc name with ⟨_, hremove⟩ | ⟨slot, place, hslot, _, hremove⟩
  · rw [hremove]
    exact continues_removeStored name s
  · rw [hremove]
    exact (continues_removeStored name _).trans (continues_vacate hc hslot)

/-- Every call continues the state. -/
theorem continues_call (hc : s.cache.Consistent s.pool) (call : Call) :
    Continues (call.after s) s := by
  cases call with
  | create id name now => exact continues_create hc id name now
  | openNamed name => exact continues_openNamed hc name
  | save place => exact continues_save place s
  | remove name => exact continues_remove hc name
  | sync => exact continues_saveChanged _ s

/-! ## Histories -/

/-- All that calls and others do continues the state. -/
theorem LeadsTo.continues (h : LeadsTo s t) (hc : s.cache.Consistent s.pool) :
    Continues t s := by
  induction h with
  | refl => exact .refl s
  | call _ call ih => exact (continues_call (ih.consistent hc) call).trans ih
  | others _ slots pool ih => exact (continues_of_sameSlots slots pool).trans ih

/-- A history may be continued by another one. -/
theorem LeadsTo.trans (h' : LeadsTo t u) (h : LeadsTo s t) : LeadsTo s u := by
  induction h' with
  | refl => exact h
  | call _ call ih => exact ih.call call
  | others _ slots pool ih => exact ih.others slots pool

/-- Whatever was done, slots and maps of the cache agree. -/
theorem Reached.consistent (h : Reached s) : s.cache.Consistent s.pool := by
  obtain ⟨store, size, threshold, source, hleads⟩ := h
  have hc := Cache.consistent_ofSize size threshold .empty
  exact (hleads.continues hc).consistent hc

/-- What a reached state leads to is reached. -/
theorem Reached.leadsTo (h : Reached s) (h' : LeadsTo s t) : Reached t := by
  obtain ⟨store, size, threshold, source, hleads⟩ := h
  exact ⟨store, size, threshold, source, h'.trans hleads⟩

end Source

/-- The state after the first collection was created is reached. -/
theorem reached_created : Reached created :=
  ⟨_, 1, 10, none, .call .refl (.create 1 "/db/a" .epoch)⟩

end Catalog

end XmlIndex
