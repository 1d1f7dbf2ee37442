import Mathlib.Logic.Relation
import XmlIndex.Proofs.CacheSteps

/-! # Moves of a cache

While room is made for a collection, few kinds of things are done to a cache (`Hosted.Move`):
something is counted, a collection is used, more slots are asked for, a resident is released,
and a released resident leaves its slot.  The last one has a reason (`Collection.LeavesFor`).

`add` makes moves; if they went well, it puts the collection into a free slot, and if something
had to leave for want of room, it may resize the cache at the end (`Hosted.Added`).  So what is
to be shown of `add` is shown of moves, of placing a collection, and of a resize. -/

namespace XmlIndex

/-! ## Collections in use -/

namespace Pool

variable {p p' p'' : Pool}

/-- The same collections, which may have been used and written in the meantime. -/
structure SameUpToUse (p' p : Pool) : Prop where
  size : p'.size = p.size
  get : ∀ place, ∃ refs timestamp dirty,
    p'.get place = { p.get place with refs := refs, timestamp := timestamp, dirty := dirty }

namespace SameUpToUse

/-- A pool is itself. -/
theorem refl (p : Pool) : p.SameUpToUse p := ⟨rfl, fun _ => ⟨_, _, _, rfl⟩⟩

/-- Use after use is use. -/
theorem trans (h' : p''.SameUpToUse p') (h : p'.SameUpToUse p) : p''.SameUpToUse p := by
  refine ⟨h'.size.trans h.size, fun place => ?_⟩
  obtain ⟨_, _, _, hget⟩ := h.get place
  obtain ⟨refs, timestamp, dirty, hget'⟩ := h'.get place
  exact ⟨refs, timestamp, dirty, by rw [hget', hget]⟩

variable (h : p'.SameUpToUse p) (place : Place)

include h

/-- The use of a collection does not change its key. -/
theorem key : (p'.get place).key = (p.get place).key := by
  obtain ⟨_, _, _, hget⟩ := h.get place
  rw [hget]

/-- The use of a collection does not change its name. -/
theorem name : (p'.get place).name = (p.get place).name := by
  obtain ⟨_, _, _, hget⟩ := h.get place
  rw [hget]

/-- The use of a collection does not change what it contains. -/
theorem record : (p'.get place).record = (p.get place).record := by
  obtain ⟨_, _, _, hget⟩ := h.get place
  rw [hget]

/-- The use of a collection does not change who writes it. -/
theorem hasWriter : (p'.get place).hasWriter = (p.get place).hasWriter := by
  obtain ⟨_, _, _, hget⟩ := h.get place
  rw [hget]

/-- The use of a collection does not change whether it is pinned. -/
theorem pinned : (p'.get place).pinned = (p.get place).pinned := by
  obtain ⟨_, _, _, hget⟩ := h.get place
  rw [hget]

omit place in
/-- Keys and names are those of before. -/
theorem toExtends : p'.Extends p :=
  ⟨Nat.le_of_eq h.size.symm, fun place _ => h.key place, fun place _ => h.name place⟩

end SameUpToUse

/-- A modification changes what is at its place only. -/
theorem get_modify (p : Pool) (place : Place) (f : Collection → Collection) (other : Place) :
    (p.modify place f).get other =
      if place = other ∧ other < p.size then f (p.get other) else p.get other := by
  rw [modify, get_set]
  split
  · next h => rw [h.1]
  · rfl

/-- At other places nothing is modified. -/
theorem get_modify_of_ne {place other : Place} {f : Collection → Collection} (h : other ≠ place) :
    (p.modify place f).get other = p.get other := by
  rw [get_modify, if_neg fun heq => h heq.1.symm]

/-- A function that leaves the collection as it is leaves the pool as it is. -/
theorem modify_of_fixed (p : Pool) (place : Place) {f : Collection → Collection}
    (h : f (p.get place) = p.get place) : p.modify place f = p := by
  have hset : p.collections.setIfInBounds place (p.get place) = p.collections := by
    refine Array.ext (by simp) fun i _ hi => ?_
    rw [Array.getElem_setIfInBounds]
    split
    · next heq =>
      subst heq
      rw [get, Array.getElem?_eq_getElem hi, Option.getD_some]
    · rfl
  rw [modify, h, set, hset]

/-- A collection may be used and written. -/
theorem sameUpToUse_modify (p : Pool) (place : Place) {f : Collection → Collection}
    (hf : ∀ c, ∃ refs timestamp dirty,
      f c = { c with refs := refs, timestamp := timestamp, dirty := dirty }) :
    (p.modify place f).SameUpToUse p := by
  refine ⟨size_set p _ place, fun other => ?_⟩
  rw [get_modify]
  split
  · exact hf (p.get other)
  · exact ⟨_, _, _, rfl⟩

end Pool

namespace Collection

/-- A clean collection is not changed by being marked clean. -/
theorem markClean_of_clean {c : Collection} (h : c.dirty = false) : c.markClean = c := by
  cases c
  simp only at h
  subst h
  rfl

/-- Why a collection leaves for one that comes in: it may leave, or it has the name of the other
one under another key. -/
def LeavesFor (incoming c : Collection) : Prop :=
  c.mayLeave = true ∨ c.name = incoming.name ∧ c.key ≠ incoming.key

end Collection

/-- The caches have the same slots and the same maps. -/
structure Cache.SameSlots (c' c : Cache) : Prop where
  slots : c'.slots = c.slots
  keys : c'.keys = c.keys
  names : c'.names = c.names

namespace Hosted

variable {σ : Type} {host : Cache.Host σ} {incoming : Collection} {s t u : Hosted σ} {slot : Nat}
  {place : Pool.Place}

/-- A release, whether it fails or not, writes its collection at most. -/
theorem release_sameUpToUse {r : EStateM.Result Error (Hosted σ) Unit}
    (h : release host place s = r) : (Action.stateOf r).pool.SameUpToUse s.pool := by
  rcases release_pool h with h | h
  · rw [h]
    exact .refl s.pool
  · rw [h]
    exact s.pool.sameUpToUse_modify place fun c => ⟨_, _, _, rfl⟩

/-- A release marks its collection clean at most. -/
theorem release_get {r : EStateM.Result Error (Hosted σ) Unit} (h : release host place s = r)
    (other : Pool.Place) :
    (Action.stateOf r).pool.get other = s.pool.get other ∨
      (Action.stateOf r).pool.get other = (s.pool.get other).markClean := by
  -- The pool is as before, or one collection of it was marked.
  rcases release_pool h with hpool | hpool
  · exact .inl (congrArg (·.get other) hpool)
  · rw [hpool, Pool.get_modify]
    split
    · exact .inr rfl
    · exact .inl rfl

/-- A release does not touch other collections. -/
theorem release_get_of_ne {r : EStateM.Result Error (Hosted σ) Unit}
    (h : release host place s = r) {other : Pool.Place} (hne : other ≠ place) :
    (Action.stateOf r).pool.get other = s.pool.get other := by
  rcases release_pool h with hpool | hpool
  · rw [hpool]
  · rw [hpool, Pool.get_modify_of_ne hne]

/-- The use of one collection does not touch others. -/
theorem get_withUse_of_ne (s : Hosted σ) {other : Pool.Place} (hne : other ≠ place)
    (refs : UInt32) (time : Nat) :
    (s.withUse place refs time).pool.get other = s.pool.get other := by
  rw [withUse, withCollection, Pool.get_modify_of_ne hne]

/-! ## Moves -/

/-- One thing that is done to a cache while room is made in it for a collection. -/
inductive Move (host : Cache.Host σ) (incoming : Collection) : Hosted σ → Hosted σ → Prop
  | counted (s : Hosted σ) (uses replacements : Nat) :
    Move host incoming s (s.withCounts uses replacements)
  | asked (s : Hosted σ) (size : Nat) :
    Move host incoming s { s with host := (host.requestSlots size s.host).2 }
  | used (s : Hosted σ) (place : Pool.Place) (refs : UInt32) (timestamp : Nat) :
    Move host incoming s (s.withUse place refs timestamp)
  | released {s : Hosted σ} {place : Pool.Place} (resident : place ∈ s.cache.residents) :
    Move host incoming s (Action.stateOf (release host place s))
  | left {s t : Hosted σ} {slot : Nat} {place : Pool.Place}
    (resident : s.cache.resident? slot = some place)
    (reason : incoming.LeavesFor (s.pool.get place)) (ready : release host place s = .ok () t) :
    Move host incoming s (t.vacate slot place)

/-- Any number of moves. -/
abbrev Moves (host : Cache.Host σ) (incoming : Collection) : Hosted σ → Hosted σ → Prop :=
  Relation.ReflTransGen (Move host incoming)

/-- What every move keeps, any number of moves keeps. -/
theorem Moves.keep {I : Hosted σ → Prop} (hstep : ∀ {s t}, I s → Move host incoming s t → I t)
    (h : Moves host incoming s t) (hs : I s) : I t := by
  induction h with
  | refl => exact hs
  | tail _ hmove ih => exact hstep ih hmove

/-- No move does more to the collections than to use and to write them. -/
theorem Move.sameUpToUse (h : Move host incoming s t) : t.pool.SameUpToUse s.pool := by
  cases h with
  | counted _ _ | asked _ => exact .refl s.pool
  | used place _ _ => exact s.pool.sameUpToUse_modify place fun c => ⟨_, _, _, rfl⟩
  | released _ => exact release_sameUpToUse rfl
  | left _ _ ready => exact release_sameUpToUse ready

/-- A move leaves slots and maps alone, or one resident leaves. -/
theorem Move.slots (h : Move host incoming s t) :
    t.cache.SameSlots s.cache ∨
      ∃ slot place, s.cache.resident? slot = some place ∧
        incoming.LeavesFor (s.pool.get place) ∧
        t.cache = s.cache.vacate slot (t.pool.get place) := by
  -- Of the moves only one takes a resident out.
  cases h with
  | counted _ _ | asked _ | used _ _ _ => exact .inl ⟨rfl, rfl, rfl⟩
  | released _ =>
    rw [release_cache rfl]
    exact .inl ⟨rfl, rfl, rfl⟩
  | left resident reason ready =>
    exact .inr ⟨_, _, resident, reason, congrArg (Cache.vacate · _ _) (release_cache ready)⟩

/-- A consistent cache stays consistent by every move. -/
theorem Move.consistent (hc : s.cache.Consistent s.pool) (h : Move host incoming s t) :
    t.cache.Consistent t.pool := by
  have hextends := h.sameUpToUse.toExtends
  rcases h.slots with hsame | ⟨slot, place, resident, _, hcache⟩
  · exact hc.congr hsame.slots hsame.keys hsame.names hextends
  · rw [hcache]
    exact (hc.of_extends hextends).vacated resident

/-- No move changes the number of slots. -/
theorem Move.capacity (h : Move host incoming s t) : t.cache.capacity = s.cache.capacity := by
  rcases h.slots with hsame | ⟨slot, place, _, _, hcache⟩
  · rw [Cache.capacity, hsame.slots, Cache.capacity]
  · rw [hcache, Cache.capacity_vacate]

/-- Nothing comes into a slot by a move. -/
theorem Move.resident? (h : Move host incoming s t) (hslot : t.cache.resident? slot = some place) :
    s.cache.resident? slot = some place := by
  rcases h.slots with hsame | ⟨_, _, _, _, hcache⟩
  · rwa [Cache.resident?, hsame.slots] at hslot
  · rw [hcache] at hslot
    exact (Cache.resident?_vacate_eq_some_iff.mp hslot).2

/-- No key comes in by a move. -/
theorem Move.keys_eq_none (h : Move host incoming s t) {key : Nat}
    (hkey : s.cache.keys.get? key = none) : t.cache.keys.get? key = none := by
  rcases h.slots with hsame | ⟨_, _, _, _, hcache⟩
  · rwa [hsame.keys]
  · rw [hcache, Cache.vacate, SortedMap.get?_erase_eq, hkey, ite_self]

/-- No name comes in by a move. -/
theorem Move.names_eq_none (h : Move host incoming s t) {name : String}
    (hname : s.cache.names.get? name = none) : t.cache.names.get? name = none := by
  rcases h.slots with hsame | ⟨_, _, _, _, hcache⟩
  · rwa [hsame.names]
  · rw [hcache, Cache.vacate, SortedMap.get?_erase_eq, hname, ite_self]

/-- A resident without a reason to leave stays in its slot. -/
theorem Move.stays (h : Move host incoming s t) (hslot : s.cache.resident? slot = some place)
    (hreason : ¬ incoming.LeavesFor (s.pool.get place)) :
    t.cache.resident? slot = some place ∧ ¬ incoming.LeavesFor (t.pool.get place) := by
  refine ⟨?_, ?_⟩
  -- Whoever leaves has a reason, so it is another resident from another slot.
  · rcases h.slots with hsame | ⟨slot', place', hslot', hreason', hcache⟩
    · rwa [Cache.resident?, hsame.slots]
    · rw [hcache]
      refine Cache.resident?_vacate_eq_some_iff.mpr ⟨?_, hslot⟩
      rintro rfl
      obtain rfl := Option.some.inj (hslot.symm.trans hslot')
      exact hreason hreason'
  -- What counts as a reason is not changed by use.
  · obtain ⟨_, _, _, hget⟩ := h.sameUpToUse.get place
    rw [hget]
    exact hreason

/-! ## Many moves -/

/-- Moves do no more to the collections than to use and to write them. -/
theorem Moves.sameUpToUse (h : Moves host incoming s t) : t.pool.SameUpToUse s.pool :=
  h.keep (fun {_ _} hu hmove => hmove.sameUpToUse.trans hu) (.refl s.pool)

/-- A consistent cache stays consistent by moves. -/
theorem Moves.consistent (h : Moves host incoming s t) (hc : s.cache.Consistent s.pool) :
    t.cache.Consistent t.pool :=
  h.keep (fun {_ _} hu hmove => hmove.consistent hu) hc

/-- Moves do not change the number of slots. -/
theorem Moves.capacity (h : Moves host incoming s t) : t.cache.capacity = s.cache.capacity :=
  h.keep (fun {_ _} hu hmove => hmove.capacity.trans hu) rfl

/-- Nothing comes into a slot by moves. -/
theorem Moves.resident? (h : Moves host incoming s t)
    (hslot : t.cache.resident? slot = some place) : s.cache.resident? slot = some place := by
  induction h with
  | refl => exact hslot
  | tail _ hmove ih => exact ih (hmove.resident? hslot)

/-- No key comes in by moves. -/
theorem Moves.keys_eq_none (h : Moves host incoming s t) {key : Nat}
    (hkey : s.cache.keys.get? key = none) : t.cache.keys.get? key = none :=
  h.keep (fun {_ _} hu hmove => hmove.keys_eq_none hu) hkey

/-- No name comes in by moves. -/
theorem Moves.names_eq_none (h : Moves host incoming s t) {name : String}
    (hname : s.cache.names.get? name = none) : t.cache.names.get? name = none :=
  h.keep (fun {_ _} hu hmove => hmove.names_eq_none hu) hname

/-- A resident without a reason to leave stays in its slot over all moves. -/
theorem Moves.stays (h : Moves host incoming s t) (hslot : s.cache.resident? slot = some place)
    (hreason : ¬ incoming.LeavesFor (s.pool.get place)) :
    t.cache.resident? slot = some place ∧ ¬ incoming.LeavesFor (t.pool.get place) :=
  h.keep (fun {_ _} hu hmove => hmove.stays hu.1 hu.2) ⟨hslot, hreason⟩

/-- If moves leave no slot free, none was free before. -/
theorem Moves.freeSlot?_eq_none (h : Moves host incoming s t) (hfull : t.cache.freeSlot? = none) :
    s.cache.freeSlot? = none := by
  refine Cache.freeSlot?_eq_none_iff.mpr fun slot hslot => ?_
  rw [← h.capacity] at hslot
  obtain ⟨place, hplace⟩ := Cache.freeSlot?_eq_none_iff.mp hfull slot hslot
  exact ⟨place, h.resident? hplace⟩

/-! ## Making room -/

/-- A resident with a reason leaves, unless its release fails. -/
theorem evict_moves (host : Cache.Host σ) (hslot : s.cache.resident? slot = some place)
    (hreason : incoming.LeavesFor (s.pool.get place)) :
    (∃ t : Hosted σ, evict host slot s = .ok (some place) (t.vacate slot place) ∧
      t.cache = s.cache ∧ t.pool.SameUpToUse s.pool ∧
      Moves host incoming s (t.vacate slot place)) ∨
    ∃ e t, evict host slot s = .error e t ∧ Moves host incoming s t := by
  rw [evict_eq, hslot]
  dsimp only
  cases hr : release host place s with
  | ok _ t =>
    exact .inl ⟨t, rfl, release_cache hr, release_sameUpToUse hr, .single (.left hslot hreason hr)⟩
  | error e t =>
    -- A release that fails is a move of its own, after which the resident is still there.
    refine .inr ⟨e, t, rfl, .single ?_⟩
    have hmove : Move host incoming s _ := .released (Cache.mem_residents hslot)
    rwa [hr] at hmove

/-- A name is free of residents, unless the release of its resident fails. -/
theorem evictName_moves (host : Cache.Host σ) (hc : s.cache.Consistent s.pool)
    (hkey : s.cache.keys.get? incoming.key = none) :
    (∃ t, evictName host incoming.name s = .ok () t ∧ Moves host incoming s t ∧
      t.cache.names.get? incoming.name = none) ∨
    ∃ e t, evictName host incoming.name s = .error e t ∧ Moves host incoming s t := by
  rw [evictName_eq]
  cases hlookup : (s.cache.names.get? incoming.name).bind s.cache.keys.get? with
  -- Nobody has the name, so the name map has no entry for it.
  | none =>
    refine .inl ⟨s, rfl, .refl, Option.eq_none_iff_forall_ne_some.mpr fun key hname => ?_⟩
    obtain ⟨slot, place, hslot, hname, _⟩ := (hc.names _ _).mp hname
    rw [(hc.slot_of_name_iff _ slot).mpr ⟨place, hslot, hname⟩] at hlookup
    cases hlookup
  | some slot =>
    obtain ⟨place, hslot, hname⟩ := (hc.slot_of_name_iff _ slot).mp hlookup
    -- The resident with the name has another key, as the key of the newcomer is nobody's.
    have hreason : incoming.LeavesFor (s.pool.get place) := by
      refine .inr ⟨hname, fun heq => ?_⟩
      have hheld := hc.keys_of_resident hslot
      rw [heq, hkey] at hheld
      cases hheld
    -- It leaves, and with it goes the entry of the name map, or the call ends here.
    rcases evict_moves host hslot hreason with
      ⟨t, hevict, hcache, hpool, hmoves⟩ | ⟨e, t, hevict, hmoves⟩
    · refine .inl ⟨_, by simp only [hevict], hmoves, ?_⟩
      show (t.cache.names.erase (t.pool.get place).name).get? incoming.name = none
      rw [hcache, hpool.name, hname, SortedMap.get?_erase_eq, if_pos rfl]
    · exact .inr ⟨e, t, by simp only [hevict], hmoves⟩

/-- There is a free slot, or one is made free, unless no resident may leave or the release of
the one that leaves fails. -/
theorem makeRoom_moves (host : Cache.Host σ) (incoming : Collection) (s : Hosted σ) :
    (∃ slot, makeRoom host s = .ok (slot, none) s ∧ s.cache.freeSlot? = some slot) ∨
    (∃ slot place t, makeRoom host s = .ok (slot, some place) t ∧ s.cache.freeSlot? = none ∧
      Moves host incoming s t ∧ slot < t.cache.capacity ∧ t.cache.resident? slot = none) ∨
    ∃ e t, makeRoom host s = .error e t ∧ Moves host incoming s t := by
  rw [makeRoom_eq]
  cases hfree : s.cache.freeSlot? with
  -- A free slot is taken as it is.
  | some slot => exact .inl ⟨slot, rfl, rfl⟩
  | none =>
    cases hvictim : s.cache.victim? s.pool with
    -- Nobody may leave, so the cache is full for good.
    | none => exact .inr (.inr ⟨_, s, rfl, .refl⟩)
    | some slot =>
      obtain ⟨place, hslot, hleave⟩ := Cache.victim?_eq_some hvictim
      have hreason : incoming.LeavesFor (s.pool.get place) := .inl hleave
      rcases evict_moves host hslot hreason with
        ⟨t, hevict, _, _, hmoves⟩ | ⟨e, t, hevict, hmoves⟩
      · refine .inr (.inl ⟨slot, place, _, by simp only [hevict], rfl, hmoves, ?_, ?_⟩)
        · rw [hmoves.capacity]
          exact Cache.lt_capacity hslot
        · exact Cache.resident?_vacate_self ..
      · exact .inr (.inr ⟨e, t, by simp only [hevict], hmoves⟩)

/-! ## Adding -/

/-- The slot is free for the collection, and no resident has its key or its name. -/
structure HasRoomFor (s : Hosted σ) (slot : Nat) (place : Pool.Place) : Prop where
  slot_lt : slot < s.cache.capacity
  free : s.cache.resident? slot = none
  key : s.cache.keys.get? (s.pool.get place).key = none
  name : s.cache.names.get? (s.pool.get place).name = none

/-- What `add` comes to: it stops, having made moves; or it puts the collection into a slot that
is free after the moves; or none was free before, and it may ask for more slots in the end. -/
inductive Added (host : Cache.Host σ) (place : Pool.Place) (s : Hosted σ) : Hosted σ → Prop
  | stopped {t : Hosted σ} (moves : Moves host (s.pool.get place) s t) : Added host place s t
  | placed {t : Hosted σ} {slot : Nat} (moves : Moves host (s.pool.get place) s t)
    (room : t.HasRoomFor slot place) : Added host place s (t.bring slot place)
  | replaced {t : Hosted σ} {slot : Nat} (full : s.cache.freeSlot? = none)
    (moves : Moves host (s.pool.get place) s t) (room : t.HasRoomFor slot place)
    (uses replacements : Nat) :
    Added host place s
      (Action.stateOf (grow host ((t.bring slot place).withCounts uses replacements)))

/-- Inserting a collection with a new key comes to moves, with the collection placed if they went
well. -/
theorem insert_added (host : Cache.Host σ) (hc : s.cache.Consistent s.pool)
    (hkey : s.cache.keys.get? (s.pool.get place).key = none) (refs : UInt32) :
    Added host place s (Action.stateOf (insert host place refs s)) := by
  rw [insert_eq]
  rcases evictName_moves host hc hkey with
    ⟨t, hevict, hmoves, hname⟩ | ⟨e, t, hevict, hmoves⟩
  · simp only [hevict]
    -- What is taken for the collection now, stays free until it comes in.
    have hmoves : Moves host (s.pool.get place) s (t.withUse place refs t.cache.uses) :=
      hmoves.tail (.used t place refs t.cache.uses)
    have hroom : ∀ {u slot}, Moves host (s.pool.get place) (t.withUse place refs t.cache.uses) u →
        slot < u.cache.capacity → u.cache.resident? slot = none → u.HasRoomFor slot place := by
      intro u slot hu hslot hfree
      have hall : Moves host (s.pool.get place) s u := hmoves.trans hu
      refine ⟨hslot, hfree, ?_, ?_⟩
      · rw [hall.sameUpToUse.key]
        exact hall.keys_eq_none hkey
      · rw [hall.sameUpToUse.name]
        exact hu.names_eq_none hname
    rcases makeRoom_moves host (s.pool.get place) (t.withUse place refs t.cache.uses) with
      ⟨slot, hmake, hfree⟩ | ⟨slot, left, u, hmake, hfull, hu, hslot, hfree⟩ | ⟨e, u, hmake, hu⟩
    -- A slot was free, and the collection is placed in it.
    · simp only [hmake]
      obtain ⟨hslot, hfree⟩ := Cache.freeSlot?_eq_some hfree
      exact .placed hmoves (hroom .refl hslot hfree)
    -- Somebody left for want of room, so more slots may be asked for.
    · simp only [hmake]
      have hadded := Added.replaced (hmoves.freeSlot?_eq_none hfull) (hmoves.trans hu)
        (hroom hu hslot hfree) u.cache.uses (u.cache.replacements + 1)
      split
      · next hgrow => rwa [hgrow] at hadded
      · next hgrow => rwa [hgrow] at hadded
    -- There was no room to be made.
    · simp only [hmake]
      exact .stopped (hmoves.trans hu)
  -- The resident with the name could not be released.
  · simp only [hevict]
    exact .stopped hmoves

/-- Adding a collection comes to moves, with the collection placed if its key is new and they went
well. -/
theorem add_added (host : Cache.Host σ) (hc : s.cache.Consistent s.pool) (place : Pool.Place)
    (refs : UInt32) : Added host place s (Action.stateOf (add host place refs s)) := by
  -- Every call is counted first, which is a move.
  have hcounted : Moves host (s.pool.get place) s
      (s.withCounts (s.cache.uses + 1) s.cache.replacements) := .single (.counted s _ _)
  rw [add_eq]
  cases hkey : s.cache.get? (s.pool.get place).key with
  -- The key is there already, so its resident is used.
  | some resident => exact .stopped (hcounted.tail (.used _ _ _ _))
  | none =>
    have hadded := insert_added host (hcounted.consistent hc)
      (hc.keys_eq_none_of_get? hkey) refs
    generalize hinsert : insert host place refs
      (s.withCounts (s.cache.uses + 1) s.cache.replacements) = r at hadded
    simp only [hinsert]
    generalize Action.stateOf r = u at hadded
    cases hadded with
    | stopped moves => exact .stopped (hcounted.trans moves)
    | placed moves room => exact .placed (hcounted.trans moves) room
    | replaced full moves room uses replacements =>
      have hfull : s.cache.freeSlot? = none := full
      exact .replaced hfull (hcounted.trans moves) room uses replacements

/-- A touch is a matter of moves. -/
theorem touch_moves (host : Cache.Host σ) (incoming : Collection) (key : Nat) (s : Hosted σ) :
    Moves host incoming s (Action.stateOf (touch key s)) := by
  rw [touch_eq]
  split
  · exact .refl
  · exact .tail (.single (.counted s _ _)) (.used _ _ _ _)

/-- A touch answers and changes no slot. -/
theorem exists_touch (key : Nat) (s : Hosted σ) :
    ∃ found t, touch key s = .ok found t ∧ t.cache.SameSlots s.cache ∧
      t.pool.SameUpToUse s.pool := by
  rw [touch_eq]
  split
  · exact ⟨_, _, rfl, ⟨rfl, rfl, rfl⟩, .refl _⟩
  · exact ⟨_, _, rfl, ⟨rfl, rfl, rfl⟩, s.pool.sameUpToUse_modify _ fun c => ⟨_, _, _, rfl⟩⟩

/-! ## Resizing -/

/-- Releasing residents is a matter of moves. -/
theorem releaseAll_moves (host : Cache.Host σ) (incoming : Collection) {places : List Pool.Place}
    (h : ∀ place ∈ places, place ∈ s.cache.residents) :
    Moves host incoming s (Action.stateOf (releaseAll host places s)) := by
  -- Induction on those who are to be released, up to the first release that fails.
  induction places generalizing s with
  | nil => exact .refl
  | cons place places ih =>
    obtain ⟨hplace, hplaces⟩ := List.forall_mem_cons.mp h
    have hmove : Move host incoming s _ := .released hplace
    rw [releaseAll_cons]
    cases hr : release host place s with
    | error e t =>
      rw [hr] at hmove
      exact .single hmove
    | ok _ t =>
      rw [hr] at hmove
      have hcache : t.cache = s.cache := release_cache hr
      exact .head hmove (ih fun place hplace => hcache ▸ hplaces place hplace)

/-- Releases do not change who is in the cache. -/
theorem releaseAll_cache (host : Cache.Host σ) (places : List Pool.Place) (s : Hosted σ) :
    (Action.stateOf (releaseAll host places s)).cache = s.cache := by
  -- Each release leaves the cache, however the ones before have ended.
  induction places generalizing s with
  | nil => rfl
  | cons place places ih =>
    rw [releaseAll_cons]
    cases hr : release host place s with
    | error e t => exact release_cache hr
    | ok _ t => exact (ih t).trans (release_cache hr)

/-- A resize stops at a release that fails, or fills the slots anew. -/
theorem resize_cases (host : Cache.Host σ) (size : Nat) (s : Hosted σ) :
    (∃ e t, releaseAll host (s.cache.residents.drop size) s = .error e t ∧
      resize host size s = .error e t ∧ t.cache = s.cache) ∨
    ∃ t, releaseAll host (s.cache.residents.drop size) s = .ok () t ∧
      resize host size s = .ok () (t.withCache fun c => c.rebuild t.pool size
        (c.residents.take size)) ∧ t.cache = s.cache := by
  have hcache := releaseAll_cache host (s.cache.residents.drop size) s
  rw [resize_eq]
  -- Those who have no slot in the new size are released before anything is moved.
  cases hr : releaseAll host (s.cache.residents.drop size) s with
  | error e t =>
    rw [hr] at hcache
    exact .inl ⟨e, t, rfl, rfl, hcache⟩
  | ok _ t =>
    rw [hr] at hcache
    refine .inr ⟨t, rfl, ?_, hcache⟩
    rw [← show t.cache = s.cache from hcache]
    rfl

/-- Asking for more slots is a move, or it leads to a resize. -/
theorem grow_cases (host : Cache.Host σ) (incoming : Collection) (s : Hosted σ) :
    Moves host incoming s (Action.stateOf (grow host s)) ∨
      ∃ size t, Moves host incoming s t ∧ t.cache = s.cache ∧ grow host s = resize host size t := by
  -- The manager is asked in either case, and what it remembers may change.
  have hasked : Moves host incoming s
      { s with host := (host.requestSlots s.cache.capacity s.host).2 } := .single (.asked s _)
  rw [grow_eq]
  split
  · cases hgranted : (host.requestSlots s.cache.capacity s.host).1 with
    | none =>
      simp only [hgranted]
      exact .inl (hasked.tail (.counted _ _ _))
    | some size =>
      simp only [hgranted]
      exact .inr ⟨size, _, hasked, rfl, rfl⟩
  · exact .inl .refl

/-- A resize uses and writes collections at most. -/
theorem resize_sameUpToUse (host : Cache.Host σ) (size : Nat) (s : Hosted σ) :
    (Action.stateOf (resize host size s)).pool.SameUpToUse s.pool := by
  have hmoves := releaseAll_moves host default
    (fun _ => List.mem_of_mem_drop (i := size) (l := s.cache.residents))
  rcases resize_cases host size s with ⟨e, t, hr, hresize, _⟩ | ⟨t, hr, hresize, _⟩
  · rw [hr] at hmoves
    rw [hresize]
    exact hmoves.sameUpToUse
  · rw [hr] at hmoves
    rw [hresize]
    exact hmoves.sameUpToUse

/-- Adding a collection uses and writes collections at most. -/
theorem add_sameUpToUse (host : Cache.Host σ) (hc : s.cache.Consistent s.pool)
    (place : Pool.Place) (refs : UInt32) :
    (Action.stateOf (add host place refs s)).pool.SameUpToUse s.pool := by
  have hadded := add_added host hc place refs
  generalize Action.stateOf (add host place refs s) = u at hadded
  cases hadded with
  | stopped hmoves => exact hmoves.sameUpToUse
  | placed hmoves _ => exact hmoves.sameUpToUse
  -- What may come behind the placing is a request for slots, which may end in a resize.
  | @replaced t slot _ hmoves _ uses replacements =>
    refine Pool.SameUpToUse.trans ?_ hmoves.sameUpToUse
    rcases grow_cases host (s.pool.get place) ((t.bring slot place).withCounts uses replacements)
      with hgrown | ⟨size, v, hasked, _, hgrow⟩
    · exact hgrown.sameUpToUse
    · rw [hgrow]
      exact (resize_sameUpToUse host size v).trans hasked.sameUpToUse

end Hosted

end XmlIndex
