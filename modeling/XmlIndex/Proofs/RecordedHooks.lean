import XmlIndex.Proofs.CacheMoves

/-! # Hooks on record

What a cache does with a collection before it leaves, it does through its host: what was derived
from it becomes invalid, and it is written back.  `Cache.Host.recorded` is a host that does the
same and writes down every such call with its outcome.

The record changes nothing: without it, an operation in recorded surroundings comes to what the
operation comes to in the surroundings themselves (`Hosted.add_recorded`,
`Hosted.resize_recorded`).  And it is complete: a release that goes well adds the two calls of one
collection to it (`Hosted.release_calls`), and releasing many adds theirs in order
(`Hosted.releaseAll_calls`). -/

namespace XmlIndex

/-- The result with a changed state. -/
def Action.mapState {σ τ α : Type} (f : σ → τ) :
    EStateM.Result Error σ α → EStateM.Result Error τ α
  | .ok a s => .ok a (f s)
  | .error e s => .error e (f s)

namespace Cache

/-- A call that a cache makes for a collection that leaves. -/
inductive HookCall where
  | invalidated (name : String)
  | wroteBack (collection : Collection) (failure? : Option Error)
  deriving DecidableEq

/-- The calls for a collection that was prepared for leaving. -/
def HookCall.ofRelease (c : Collection) : List HookCall :=
  [.invalidated c.name, .wroteBack c none]

/-- The host that does the same and keeps a record of the calls. -/
def Host.recorded {σ : Type} (host : Host σ) : Host (σ × List HookCall) where
  invalidate name s := (host.invalidate name s.1, s.2 ++ [.invalidated name])
  writeBack collection s :=
    match host.writeBack collection s.1 with
    | .ok written h => .ok written (h, s.2 ++ [.wroteBack collection none])
    | .error e h => .error e (h, s.2 ++ [.wroteBack collection (some e)])
  requestSlots current s :=
    let (granted, h) := host.requestSlots current s.1
    (granted, (h, s.2))

end Cache

namespace Hosted

open XmlIndex.Action Cache

variable {σ : Type} {host : Cache.Host σ} {place : Pool.Place}

/-- The state with an empty record. -/
def recording (s : Hosted σ) : Hosted (σ × List HookCall) where
  cache := s.cache
  pool := s.pool
  host := (s.host, [])

/-- The state without its record. -/
def unrecorded (s : Hosted (σ × List HookCall)) : Hosted σ where
  cache := s.cache
  pool := s.pool
  host := s.host.1

/-- The record of a state. -/
def calls (s : Hosted (σ × List HookCall)) : List HookCall := s.host.2

variable {s t : Hosted (σ × List HookCall)}

/-! ## A record changes nothing -/

/-- The cache has no part in the record. -/
@[simp] theorem cache_unrecorded (s : Hosted (σ × List HookCall)) :
    s.unrecorded.cache = s.cache := rfl

/-- The collections have no part in the record. -/
@[simp] theorem pool_unrecorded (s : Hosted (σ × List HookCall)) :
    s.unrecorded.pool = s.pool := rfl

/-- The surroundings are the first part of the recorded ones. -/
@[simp] theorem host_unrecorded (s : Hosted (σ × List HookCall)) :
    s.unrecorded.host = s.host.1 := rfl

/-- A release comes to the same with a record and without. -/
theorem release_recorded (host : Cache.Host σ) (place : Pool.Place)
    (s : Hosted (σ × List HookCall)) :
    release host place s.unrecorded = mapState unrecorded (release host.recorded place s) := by
  simp only [release_eq, Host.recorded, pool_unrecorded, host_unrecorded]
  cases host.writeBack (s.pool.get place) (host.invalidate (s.pool.get place).name s.host.1) with
  | error e h => rfl
  | ok written h => cases written <;> rfl

/-- Releases in a row come to the same with a record and without. -/
theorem releaseAll_recorded (host : Cache.Host σ) (places : List Pool.Place)
    (s : Hosted (σ × List HookCall)) :
    releaseAll host places s.unrecorded =
      mapState unrecorded (releaseAll host.recorded places s) := by
  induction places generalizing s with
  | nil => rfl
  | cons place places ih =>
    rw [releaseAll_cons, releaseAll_cons, release_recorded]
    cases release host.recorded place s with
    | ok _ t => exact ih t
    | error e t => rfl

/-- An eviction comes to the same with a record and without. -/
theorem evict_recorded (host : Cache.Host σ) (slot : Nat) (s : Hosted (σ × List HookCall)) :
    evict host slot s.unrecorded = mapState unrecorded (evict host.recorded slot s) := by
  rw [evict_eq, evict_eq, cache_unrecorded]
  cases s.cache.resident? slot with
  | none => rfl
  | some place =>
    dsimp only
    rw [release_recorded]
    cases release host.recorded place s <;> rfl

/-- A resize comes to the same with a record and without. -/
theorem resize_recorded (host : Cache.Host σ) (size : Nat) (s : Hosted (σ × List HookCall)) :
    resize host size s.unrecorded = mapState unrecorded (resize host.recorded size s) := by
  rw [resize_eq, resize_eq, cache_unrecorded, releaseAll_recorded]
  cases releaseAll host.recorded (s.cache.residents.drop size) s <;> rfl

/-- Growing comes to the same with a record and without. -/
theorem grow_recorded (host : Cache.Host σ) (s : Hosted (σ × List HookCall)) :
    grow host s.unrecorded = mapState unrecorded (grow host.recorded s) := by
  -- Asking for slots goes past the record.
  have hslots : ∀ current, host.recorded.requestSlots current s.host =
      ((host.requestSlots current s.host.1).1, (host.requestSlots current s.host.1).2, s.host.2) :=
    fun _ => rfl
  by_cases hasks : s.cache.threshold < s.cache.replacements
  · rw [grow_eq, grow_eq, cache_unrecorded, if_pos hasks, if_pos hasks]
    simp only [host_unrecorded, hslots]
    cases (host.requestSlots s.cache.capacity s.host.1).1 with
    | none => rfl
    | some size =>
      exact resize_recorded host size
        ⟨s.cache, s.pool, (host.requestSlots s.cache.capacity s.host.1).2, s.host.2⟩
  · rw [grow_eq, grow_eq, cache_unrecorded, if_neg hasks, if_neg hasks]
    rfl

/-- Freeing a name comes to the same with a record and without. -/
theorem evictName_recorded (host : Cache.Host σ) (name : String)
    (s : Hosted (σ × List HookCall)) :
    evictName host name s.unrecorded = mapState unrecorded (evictName host.recorded name s) := by
  rw [evictName_eq, evictName_eq, cache_unrecorded]
  cases (s.cache.names.get? name).bind s.cache.keys.get? with
  | none => rfl
  | some slot =>
    dsimp only
    rw [evict_recorded]
    cases evict host.recorded slot s <;> rfl

/-- Making room comes to the same with a record and without. -/
theorem makeRoom_recorded (host : Cache.Host σ) (s : Hosted (σ × List HookCall)) :
    makeRoom host s.unrecorded = mapState unrecorded (makeRoom host.recorded s) := by
  rw [makeRoom_eq, makeRoom_eq, cache_unrecorded, pool_unrecorded]
  -- Slot and victim are chosen by cache and pool, which the record is no part of.
  cases s.cache.freeSlot? with
  | some slot => rfl
  | none =>
    cases s.cache.victim? s.pool with
    | none => rfl
    | some slot =>
      dsimp only
      rw [evict_recorded]
      cases evict host.recorded slot s <;> rfl

/-- Inserting a collection comes to the same with a record and without. -/
theorem insert_recorded (host : Cache.Host σ) (place : Pool.Place) (refs : UInt32)
    (s : Hosted (σ × List HookCall)) :
    insert host place refs s.unrecorded =
      mapState unrecorded (insert host.recorded place refs s) := by
  -- Stage by stage: each one comes to the same, so the next one starts from the same state.
  rw [insert_eq, insert_eq, pool_unrecorded, evictName_recorded]
  cases evictName host.recorded (s.pool.get place).name s with
  | error e t => rfl
  | ok _ t =>
    have hroom : makeRoom host (t.unrecorded.withUse place refs t.cache.uses) =
        mapState unrecorded (makeRoom host.recorded (t.withUse place refs t.cache.uses)) :=
      makeRoom_recorded host (t.withUse place refs t.cache.uses)
    dsimp only [mapState]
    rw [cache_unrecorded, hroom]
    cases makeRoom host.recorded (t.withUse place refs t.cache.uses) with
    | error e u => rfl
    | ok found u =>
      obtain ⟨slot, evicted?⟩ := found
      cases evicted? with
      | none => rfl
      | some evicted =>
        have hgrow : grow host ((u.unrecorded.bring slot place).withCounts u.cache.uses
            (u.cache.replacements + 1)) =
            mapState unrecorded (grow host.recorded ((u.bring slot place).withCounts u.cache.uses
              (u.cache.replacements + 1))) :=
          grow_recorded host ((u.bring slot place).withCounts u.cache.uses
            (u.cache.replacements + 1))
        dsimp only [mapState]
        rw [cache_unrecorded, hgrow]
        cases grow host.recorded ((u.bring slot place).withCounts u.cache.uses
          (u.cache.replacements + 1)) <;> rfl

/-- Adding a collection comes to the same with a record and without. -/
theorem add_recorded (host : Cache.Host σ) (place : Pool.Place) (refs : UInt32)
    (s : Hosted (σ × List HookCall)) :
    add host place refs s.unrecorded = mapState unrecorded (add host.recorded place refs s) := by
  rw [add_eq, add_eq, cache_unrecorded, pool_unrecorded]
  dsimp only
  cases s.cache.get? (s.pool.get place).key with
  | some resident => rfl
  | none =>
    exact insert_recorded host place refs (s.withCounts (s.cache.uses + 1) s.cache.replacements)

/-! ## What is on record -/

/-- A release that goes well has told the hooks and written back, in this order. -/
theorem release_calls (h : release host.recorded place s = .ok () t) :
    t.calls = s.calls ++ HookCall.ofRelease (s.pool.get place) := by
  simp only [release_eq, Host.recorded] at h
  cases hwrite : host.writeBack (s.pool.get place)
      (host.invalidate (s.pool.get place).name s.host.1) with
  | error e h' =>
    rw [hwrite] at h
    cases h
  | ok written h' =>
    rw [hwrite] at h
    -- Whether there was something to write or not, both calls are on record.
    have hstate : t.host = (h', s.host.2 ++ [.invalidated (s.pool.get place).name] ++
        [.wroteBack (s.pool.get place) none]) := by
      cases written
      · obtain ⟨_, rfl⟩ := EStateM.Result.ok.inj h
        rfl
      · obtain ⟨_, rfl⟩ := EStateM.Result.ok.inj h
        rfl
    rw [calls, hstate, List.append_assoc]
    rfl

/-- Releases that go well are on record one after the other. -/
theorem releaseAll_calls {places : List Pool.Place} (hnodup : places.Nodup)
    (h : releaseAll host.recorded places s = .ok () t) :
    t.calls = s.calls ++ places.flatMap fun place => HookCall.ofRelease (s.pool.get place) := by
  -- Induction on those who are to be released.
  induction places generalizing s with
  | nil =>
    obtain ⟨_, rfl⟩ := EStateM.Result.ok.inj h
    rw [List.flatMap_nil, List.append_nil]
  | cons place places ih =>
    obtain ⟨hplace, hplaces⟩ := List.nodup_cons.mp hnodup
    rw [releaseAll_cons] at h
    cases hrelease : release host.recorded place s with
    | error e u =>
      simp only [hrelease] at h
      cases h
    | ok _ u =>
      simp only [hrelease] at h
      -- The others are still what they were when the first one is released.
      have hothers : (places.flatMap fun other => HookCall.ofRelease (u.pool.get other)) =
          places.flatMap fun other => HookCall.ofRelease (s.pool.get other) := by
        refine List.flatMap_congr fun other hother => ?_
        have hget : u.pool.get other = s.pool.get other :=
          release_get_of_ne hrelease fun heq => hplace (heq ▸ hother)
        rw [hget]
      rw [ih hplaces h, release_calls hrelease, hothers, List.append_assoc, List.flatMap_cons]

end Hosted

end XmlIndex
