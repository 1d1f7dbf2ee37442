import XmlIndex.Collection.Cache.Hosted
import XmlIndex.Proofs.ActionSteps
import XmlIndex.Proofs.CacheVictims

/-! # What the cache operations do

Each operation on a cache has an equation that says how it goes on after the operations it is
made of have answered or failed.  A release leaves the cache alone, keeps keys and names, and
marks one collection clean at most.  A cache fails because all residents are in use, or because one
of them cannot be written back (`Hosted.Fails`). -/

namespace XmlIndex

namespace Hosted

variable {σ : Type} {host : Cache.Host σ} {s t u : Hosted σ} {slot : Nat} {place : Pool.Place}

/-- The state with other counts. -/
def withCounts (s : Hosted σ) (uses replacements : Nat) : Hosted σ :=
  s.withCache fun c => { c with uses, replacements }

/-- The state in which a collection was used this often, and last at this time. -/
def withUse (s : Hosted σ) (place : Pool.Place) (refs : UInt32) (timestamp : Nat) : Hosted σ :=
  s.withCollection place fun c => { c with refs, timestamp }

/-- The state with an empty slot in place of one with this collection. -/
def vacate (s : Hosted σ) (slot : Nat) (place : Pool.Place) : Hosted σ :=
  s.withCache fun c => c.vacate slot (s.pool.get place)

/-- The state with a collection in a slot. -/
def bring (s : Hosted σ) (slot : Nat) (place : Pool.Place) : Hosted σ :=
  s.withCache fun c => c.place slot place (s.pool.get place)

/-! ## Equations -/

/-- A release tells the hooks, and the collection is clean if it was written. -/
theorem release_eq (host : Cache.Host σ) (place : Pool.Place) (s : Hosted σ) :
    release host place s =
      match host.writeBack (s.pool.get place)
        (host.invalidate (s.pool.get place).name s.host) with
      | .ok true h => .ok () { s with host := h, pool := s.pool.modify place .markClean }
      | .ok false h => .ok () { s with host := h }
      | .error e h => .error e { s with host := h } := by
  rw [release, Action.get_bind, Action.modify_bind]
  cases h : host.writeBack (s.pool.get place) (host.invalidate (s.pool.get place).name s.host) with
  | error e h' => exact Action.bind_of_error (Action.on_eq_error_iff.mpr ⟨h', h, rfl⟩)
  | ok written h' =>
    -- The hooks see the host alone, and what they leave is put back.
    have hon : Action.on (·.host) (fun h (s : Hosted σ) => { s with host := h })
        (host.writeBack (s.pool.get place))
        { s with host := host.invalidate (s.pool.get place).name s.host } =
          .ok written { s with host := h' } := Action.on_eq_ok_iff.mpr ⟨h', h, rfl⟩
    refine (Action.bind_of_ok hon).trans ?_
    cases written <;> rfl

/-- An eviction releases the resident of a slot, and empties the slot if that went well. -/
theorem evict_eq (host : Cache.Host σ) (slot : Nat) (s : Hosted σ) :
    evict host slot s =
      match s.cache.resident? slot with
      | none => .ok none s
      | some place =>
        match release host place s with
        | .ok _ t => .ok (some place) (t.vacate slot place)
        | .error e t => .error e t := by
  rw [evict, Action.get_bind]
  cases s.cache.resident? slot with
  | none => rfl
  | some place =>
    dsimp only
    cases h : release host place s with
    | ok _ t => exact Action.bind_of_ok h
    | error e t => exact Action.bind_of_error h

/-- A resize releases whoever has no slot in the new size, and fills the slots anew if that went
well. -/
theorem resize_eq (host : Cache.Host σ) (size : Nat) (s : Hosted σ) :
    resize host size s =
      match releaseAll host (s.cache.residents.drop size) s with
      | .ok _ t => .ok () (t.withCache fun c => c.rebuild t.pool size (s.cache.residents.take size))
      | .error e t => .error e t := by
  rw [resize, Action.get_bind]
  cases h : releaseAll host (s.cache.residents.drop size) s with
  | ok _ t => exact Action.bind_of_ok h
  | error e t => exact Action.bind_of_error h

/-- Where there is a slot for every resident, nobody is released. -/
theorem resize_of_fits {size : Nat} (h : s.cache.residents.length ≤ size) :
    resize host size s = .ok () (s.withCache fun c => c.rebuild s.pool size c.residents) := by
  rw [resize_eq, List.drop_eq_nil_of_le h, List.take_of_length_le h]
  rfl

/-- After too many replacements more slots are asked for; if none are granted, counting begins anew.
-/
theorem grow_eq (host : Cache.Host σ) (s : Hosted σ) :
    grow host s =
      if s.cache.threshold < s.cache.replacements then
        let (granted, h) := host.requestSlots s.cache.capacity s.host
        match granted with
        | some size => resize host size { s with host := h }
        | none => .ok () ({ s with host := h }.withCounts s.cache.uses 0)
      else .ok () s := by
  rw [grow, Action.get_bind]
  split
  · refine (Action.bind_of_ok rfl).trans ?_
    cases hgranted : (host.requestSlots s.cache.capacity s.host).1 with
    | none =>
      simp only [hgranted]
      rfl
    | some size => simp only [hgranted]
  · rfl

/-- A name is made free by evicting the resident that has it. -/
theorem evictName_eq (host : Cache.Host σ) (name : String) (s : Hosted σ) :
    evictName host name s =
      match (s.cache.names.get? name).bind s.cache.keys.get? with
      | none => .ok () s
      | some slot =>
        match evict host slot s with
        | .ok _ t => .ok () t
        | .error e t => .error e t := by
  rw [evictName, Action.get_bind]
  cases (s.cache.names.get? name).bind s.cache.keys.get? with
  | none => rfl
  | some slot =>
    dsimp only
    cases h : evict host slot s with
    | ok evicted t => exact Action.bind_of_ok h
    | error e t => exact Action.bind_of_error h

/-- Room is a free slot, or else the slot of the victim. -/
theorem makeRoom_eq (host : Cache.Host σ) (s : Hosted σ) :
    makeRoom host s =
      match s.cache.freeSlot? with
      | some slot => .ok (slot, none) s
      | none =>
        match s.cache.victim? s.pool with
        | none => .error (.cacheFull s.cache.capacity) s
        | some slot =>
          match evict host slot s with
          | .ok evicted t => .ok (slot, evicted) t
          | .error e t => .error e t := by
  -- A case for each answer, as the action goes through them.
  rw [makeRoom, Action.get_bind]
  cases s.cache.freeSlot? with
  | some slot => rfl
  | none =>
    cases s.cache.victim? s.pool with
    | none => rfl
    | some slot =>
      dsimp only
      cases h : evict host slot s with
      | ok evicted t => exact Action.bind_of_ok h
      | error e t => exact Action.bind_of_error h

/-- A collection comes in after its name is free and there is room, and for a victim the cache may
grow. -/
theorem insert_eq (host : Cache.Host σ) (place : Pool.Place) (refs : UInt32) (s : Hosted σ) :
    insert host place refs s =
      match evictName host (s.pool.get place).name s with
      | .error e t => .error e t
      | .ok _ t =>
        match makeRoom host (t.withUse place refs t.cache.uses) with
        | .error e u => .error e u
        | .ok (slot, none) u => .ok none (u.bring slot place)
        | .ok (slot, some evicted) u =>
          match grow host ((u.bring slot place).withCounts u.cache.uses
            (u.cache.replacements + 1)) with
          | .ok _ v => .ok (some evicted) v
          | .error e v => .error e v := by
  rw [insert, Action.get_bind]
  -- The steps are followed one by one; a failure ends the action where it happens.
  cases hname : evictName host (s.pool.get place).name s with
  | error e t => exact Action.bind_of_error hname
  | ok _ t =>
    rw [Action.bind_of_ok hname, Action.modify_bind]
    dsimp only
    cases hroom : makeRoom host (t.withUse place refs t.cache.uses) with
    | error e u => exact Action.bind_of_error hroom
    | ok found u =>
      obtain ⟨slot, evicted?⟩ := found
      refine (Action.bind_of_ok hroom).trans ?_
      rw [Action.modify_bind]
      cases evicted? with
      | none => rfl
      -- Only an eviction for want of room counts as a replacement.
      | some evicted =>
        dsimp only
        rw [if_pos Option.isSome_some, Action.modify_bind]
        cases hgrow : grow host ((u.bring slot place).withCounts u.cache.uses
            (u.cache.replacements + 1)) with
        | ok _ v => exact Action.bind_of_ok hgrow
        | error e v => exact Action.bind_of_error hgrow

/-- A collection whose key is there counts as used, and any other is inserted. -/
theorem add_eq (host : Cache.Host σ) (place : Pool.Place) (refs : UInt32) (s : Hosted σ) :
    add host place refs s =
      let t := s.withCounts (s.cache.uses + 1) s.cache.replacements
      match s.cache.get? (s.pool.get place).key with
      | some resident =>
        .ok none (t.withUse resident ((s.pool.get resident).refs + 1) (s.cache.uses + 1))
      | none => insert host place refs t := by
  -- Counting a use changes no look-up.
  have hget : (s.withCache fun c => { c with uses := c.uses + 1 }).cache.get?
      ((s.withCache fun c => { c with uses := c.uses + 1 }).pool.get place).key =
        s.cache.get? (s.pool.get place).key := rfl
  rw [add, countUse, Action.modify_bind, Action.get_bind]
  simp only [hget]
  cases s.cache.get? (s.pool.get place).key <;> rfl

/-- Adding a collection with a new key, step by step. -/
theorem add_of_new_key {refs : UInt32} (h : s.cache.get? (s.pool.get place).key = none) :
    add host place refs s =
      match evictName host (s.pool.get place).name
        (s.withCounts (s.cache.uses + 1) s.cache.replacements) with
      | .error e t => .error e t
      | .ok _ t =>
        match makeRoom host (t.withUse place refs t.cache.uses) with
        | .error e u => .error e u
        | .ok (slot, none) u => .ok none (u.bring slot place)
        | .ok (slot, some evicted) u =>
          match grow host ((u.bring slot place).withCounts u.cache.uses
            (u.cache.replacements + 1)) with
          | .ok _ v => .ok (some evicted) v
          | .error e v => .error e v := by
  rw [add_eq, h]
  exact insert_eq host place refs _

/-- A touch counts as a use of the collection, if it is there. -/
theorem touch_eq (key : Nat) (s : Hosted σ) :
    touch key s =
      match s.cache.get? key with
      | none => .ok false s
      | some place =>
        .ok true ((s.withCounts (s.cache.uses + 1) s.cache.replacements).withUse place
          ((s.pool.get place).refs + 1) (s.cache.uses + 1)) := by
  rw [touch, Action.get_bind]
  cases s.cache.get? key <;> rfl

/-- Without a resident with the key there is nothing to remove. -/
theorem remove_of_get?_eq_none {key : Nat} (hc : s.cache.Consistent s.pool)
    (hkey : s.cache.get? key = none) : remove host key s = .ok none s := by
  rw [remove, Action.get_bind, hc.keys_eq_none_of_get? hkey]
  rfl

/-- A resident that is removed leaves its slot like one that makes room. -/
theorem remove_of_resident (hc : s.cache.Consistent s.pool)
    (hslot : s.cache.resident? slot = some place) :
    remove host (s.pool.get place).key s = .ok (some place)
      { s.vacate slot place with host := host.invalidate (s.pool.get place).name s.host } := by
  rw [remove, Action.get_bind, hc.keys_of_resident hslot]
  simp only [hslot]
  rw [Action.modify_bind, Action.modify_bind]
  -- The maps are in step, so the name leads to this key and goes with it.
  simp only [withCache, hc.names_of_resident hslot, if_true]
  rfl

/-! ## Releases -/

/-- A release leaves the cache alone. -/
theorem release_cache {r : EStateM.Result Error (Hosted σ) Unit}
    (h : release host place s = r) : (Action.stateOf r).cache = s.cache := by
  rw [← h, release_eq]
  split <;> rfl

/-- A release marks the collection clean or leaves it as it is. -/
theorem release_pool {r : EStateM.Result Error (Hosted σ) Unit} (h : release host place s = r) :
    (Action.stateOf r).pool = s.pool ∨
      (Action.stateOf r).pool = s.pool.modify place .markClean := by
  rw [← h, release_eq]
  split
  · exact .inr rfl
  · exact .inl rfl
  · exact .inl rfl

/-- Residents are released in order, up to the first that fails. -/
theorem releaseAll_cons (host : Cache.Host σ) (place : Pool.Place) (places : List Pool.Place)
    (s : Hosted σ) :
    releaseAll host (place :: places) s =
      match release host place s with
      | .ok _ t => releaseAll host places t
      | .error e t => .error e t := by
  rw [releaseAll]
  cases h : release host place s with
  | ok _ t => exact Action.bind_of_ok h
  | error e t => exact Action.bind_of_error h

/-! ## Failures -/

/-- The causes of failure of a cache: all residents are in use, or one of them cannot be written
back. -/
def Fails (host : Cache.Host σ) (e : Error) : Prop :=
  (∃ slots, e = .cacheFull slots) ∨
    ∃ collection state state', host.writeBack collection state = .error e state'

variable {e : Error}

/-- A release fails only because the collection cannot be written back. -/
theorem release_fails (h : release host place s = .error e t) : Fails host e := by
  rw [release_eq] at h
  split at h
  · cases h
  · cases h
  · next hwrite =>
    obtain ⟨rfl, _⟩ := EStateM.Result.error.inj h
    exact .inr ⟨_, _, _, hwrite⟩

/-- Releases fail only because a collection cannot be written back. -/
theorem releaseAll_fails {places : List Pool.Place} (h : releaseAll host places s = .error e t) :
    Fails host e := by
  induction places generalizing s with
  | nil => cases h
  | cons place places ih =>
    rw [releaseAll_cons] at h
    -- The first one that fails ends the releases with its failure.
    split at h
    · exact ih h
    · next hrelease =>
      obtain ⟨rfl, _⟩ := EStateM.Result.error.inj h
      exact release_fails hrelease

/-- An eviction fails only as its release does. -/
theorem evict_fails (h : evict host slot s = .error e t) : Fails host e := by
  rw [evict_eq] at h
  split at h
  · cases h
  · split at h
    · cases h
    · next hrelease =>
      obtain ⟨rfl, _⟩ := EStateM.Result.error.inj h
      exact release_fails hrelease

/-- A resize fails only as its releases do. -/
theorem resize_fails {size : Nat} (h : resize host size s = .error e t) : Fails host e := by
  rw [resize_eq] at h
  split at h
  · cases h
  · next hrelease =>
    obtain ⟨rfl, _⟩ := EStateM.Result.error.inj h
    exact releaseAll_fails hrelease

/-- Growing fails only as its resize does. -/
theorem grow_fails (h : grow host s = .error e t) : Fails host e := by
  rw [grow_eq] at h
  split at h
  · dsimp only at h
    split at h
    · exact resize_fails h
    · cases h
  · cases h

/-- Freeing a name fails only as its eviction does. -/
theorem evictName_fails {name : String} (h : evictName host name s = .error e t) :
    Fails host e := by
  rw [evictName_eq] at h
  split at h
  · cases h
  · split at h
    · cases h
    · next hevict =>
      obtain ⟨rfl, _⟩ := EStateM.Result.error.inj h
      exact evict_fails hevict

/-- Making room fails because all are in use, or as its eviction does. -/
theorem makeRoom_fails (h : makeRoom host s = .error e t) : Fails host e := by
  rw [makeRoom_eq] at h
  split at h
  · cases h
  -- No slot is free; without a victim the cache is crowded, and else the eviction decides.
  · split at h
    · obtain ⟨rfl, _⟩ := EStateM.Result.error.inj h
      exact .inl ⟨_, rfl⟩
    · split at h
      · cases h
      · next hevict =>
        obtain ⟨rfl, _⟩ := EStateM.Result.error.inj h
        exact evict_fails hevict

/-- Inserting fails for a known reason. -/
theorem insert_fails {refs : UInt32} (h : insert host place refs s = .error e t) :
    Fails host e := by
  rw [insert_eq] at h
  split at h
  -- Each step that may fail does so for one of the two reasons.
  · next hname =>
    obtain ⟨rfl, _⟩ := EStateM.Result.error.inj h
    exact evictName_fails hname
  · split at h
    · next hroom =>
      obtain ⟨rfl, _⟩ := EStateM.Result.error.inj h
      exact makeRoom_fails hroom
    · cases h
    · split at h
      · cases h
      · next hgrow =>
        obtain ⟨rfl, _⟩ := EStateM.Result.error.inj h
        exact grow_fails hgrow

/-- Adding fails for a known reason. -/
theorem add_fails {refs : UInt32} (h : add host place refs s = .error e t) : Fails host e := by
  rw [add_eq] at h
  dsimp only at h
  split at h
  · cases h
  · exact insert_fails h

end Hosted

end XmlIndex
