import XmlIndex.Proofs.CacheMoves

/-! # Runs of a cache

A run starts with an empty cache of any size and goes on with calls, successful or not
(`Hosted.Run`).  Between the calls others may do to the collections what they like, as long as
these keep their keys and names, and the surroundings may change.

Every run leaves the maps of the cache the inverse of its slots, so the cache passes its check
and its look-ups find what is there (`Hosted.Run.cache_reliable`). -/

namespace XmlIndex

/-- What is relied on: the cache passes its check, its maps are the inverse of its slots, a key or
a name finds the one resident that has it, and there are no more residents than slots. -/
structure Cache.Reliable (c : Cache) (pool : Pool) : Prop where
  check : c.check pool = .ok ()
  keys : ∀ key slot, c.keys.get? key = some slot ↔
    ∃ place, c.resident? slot = some place ∧ (pool.get place).key = key
  names : ∀ name key, c.names.get? name = some key ↔
    ∃ slot place, c.resident? slot = some place ∧
      (pool.get place).name = name ∧ (pool.get place).key = key
  distinct : c.residents.Pairwise fun place place' =>
    (pool.get place).key ≠ (pool.get place').key ∧ (pool.get place).name ≠ (pool.get place').name
  get?_eq_some_iff : ∀ key place, c.get? key = some place ↔
    place ∈ c.residents ∧ (pool.get place).key = key
  get?_eq_none_iff : ∀ key, c.get? key = none ↔ ∀ place ∈ c.residents, (pool.get place).key ≠ key
  getByName?_eq_some_iff : ∀ name place, c.getByName? name = some place ↔
    place ∈ c.residents ∧ (pool.get place).name = name
  getByName?_eq_none_iff : ∀ name, c.getByName? name = none ↔
    ∀ place ∈ c.residents, (pool.get place).name ≠ name
  size_le : c.size ≤ c.capacity

/-- A cache whose maps fit its slots can be relied on. -/
theorem Cache.Consistent.reliable {c : Cache} {pool : Pool} (h : c.Consistent pool) :
    c.Reliable pool where
  check := h.check_eq_ok
  keys := h.keys
  names := h.names
  distinct := List.pairwise_and_iff.mpr
    ⟨List.pairwise_map.mp h.nodup_residents_key, List.pairwise_map.mp h.nodup_residents_name⟩
  get?_eq_some_iff := h.get?_eq_some_iff
  get?_eq_none_iff := h.get?_eq_none_iff
  getByName?_eq_some_iff := h.getByName?_eq_some_iff
  getByName?_eq_none_iff := h.getByName?_eq_none_iff
  size_le := h.size_le_capacity

namespace Hosted

variable {σ : Type} {host : Cache.Host σ} {incoming : Collection} {s t : Hosted σ} {slot : Nat}
  {place : Pool.Place}

/-! ## Calls -/

/-- A call that may change a cache. -/
inductive Call where
  | add (place : Pool.Place) (refs : UInt32)
  | touch (key : Nat)
  | remove (key : Nat)
  | resize (size : Nat)

namespace Call

/-- What there is after a call, whether it answered or failed. -/
def after (host : Cache.Host σ) (s : Hosted σ) : Call → Hosted σ
  | add place refs => Action.stateOf (Hosted.add host place refs s)
  | touch key => Action.stateOf (Hosted.touch key s)
  | remove key => Action.stateOf (Hosted.remove host key s)
  | resize size => Action.stateOf (Hosted.resize host size s)

/-- What is added is a collection in memory. -/
def Fits (s : Hosted σ) : Call → Prop
  | add place _ => place < s.pool.size
  | touch _ | remove _ | resize _ => True

instance (s : Hosted σ) (call : Call) : Decidable (call.Fits s) :=
  match call with
  | add place _ => inferInstanceAs (Decidable (place < s.pool.size))
  | touch _ | remove _ | resize _ => .isTrue trivial

end Call

/-- The states that calls lead to, starting with an empty cache. -/
inductive Run (host : Cache.Host σ) (size threshold : Nat) : Hosted σ → Prop
  | start (pool : Pool) (state : σ) :
    Run host size threshold ⟨.ofSize size threshold, pool, state⟩
  | call {s : Hosted σ} (run : Run host size threshold s) (call : Call) (fits : call.Fits s) :
    Run host size threshold (call.after host s)
  /-- Others may do what they like to the collections, but keys and names stay. -/
  | others {s : Hosted σ} (run : Run host size threshold s) (pool : Pool) (state : σ)
    (grown : pool.Extends s.pool) : Run host size threshold ⟨s.cache, pool, state⟩

/-! ## What calls keep -/

/-- Bringing in a collection that there is room for keeps the maps in step. -/
theorem HasRoomFor.consistent_bring (room : s.HasRoomFor slot place)
    (hc : s.cache.Consistent s.pool) (hplace : place < s.pool.size) :
    (s.bring slot place).cache.Consistent (s.bring slot place).pool :=
  hc.placed room.slot_lt room.free hplace room.key room.name

/-- A resize keeps the maps in step. -/
theorem resize_consistent (hc : s.cache.Consistent s.pool) (size : Nat) :
    (Action.stateOf (resize host size s)).cache.Consistent
      (Action.stateOf (resize host size s)).pool := by
  -- Whom the resize releases are the residents behind the new size.
  have hmoves := releaseAll_moves host default
    (fun _ => List.mem_of_mem_drop (i := size) (l := s.cache.residents))
  rcases resize_cases host size s with ⟨e, t, hr, hresize, _⟩ | ⟨t, hr, hresize, _⟩
  · rw [hresize]
    rw [hr] at hmoves
    exact hmoves.consistent hc
  · rw [hresize]
    rw [hr] at hmoves
    exact (hmoves.consistent hc).rebuilt size

/-- Adding a collection keeps the maps in step. -/
theorem add_consistent (hc : s.cache.Consistent s.pool) (hplace : place < s.pool.size)
    (refs : UInt32) :
    (Action.stateOf (add host place refs s)).cache.Consistent
      (Action.stateOf (add host place refs s)).pool := by
  have hadded := add_added host hc place refs
  generalize Action.stateOf (add host place refs s) = u at hadded
  have hbring : ∀ {t slot}, Moves host (s.pool.get place) s t → t.HasRoomFor slot place →
      (t.bring slot place).cache.Consistent (t.bring slot place).pool := by
    intro t slot hmoves hroom
    exact hroom.consistent_bring (hmoves.consistent hc) (hmoves.sameUpToUse.size ▸ hplace)
  -- It stopped on the way, or the collection is in, with or without somebody leaving for it.
  cases hadded with
  | stopped hmoves => exact hmoves.consistent hc
  | placed hmoves hroom => exact hbring hmoves hroom
  | @replaced t slot _ hmoves hroom uses replacements =>
    have hc : ((t.bring slot place).withCounts uses replacements).cache.Consistent
        (t.bring slot place).pool := (hbring hmoves hroom).congr rfl rfl rfl (.refl _)
    rcases grow_cases host (s.pool.get place) ((t.bring slot place).withCounts uses replacements)
      with hmoves | ⟨size, v, hmoves, _, hgrow⟩
    · exact hmoves.consistent hc
    · rw [hgrow]
      exact resize_consistent (hmoves.consistent hc) size

/-- Removing a collection keeps the maps in step. -/
theorem remove_consistent (hc : s.cache.Consistent s.pool) (key : Nat) :
    (Action.stateOf (remove host key s)).cache.Consistent
      (Action.stateOf (remove host key s)).pool := by
  -- Without a resident of that key nothing happens.
  cases hkey : s.cache.get? key with
  | none =>
    rw [remove_of_get?_eq_none hc hkey]
    exact hc
  | some place =>
    obtain ⟨hplace, rfl⟩ := (hc.get?_eq_some_iff key place).mp hkey
    obtain ⟨slot, hslot⟩ := Cache.mem_residents_iff.mp hplace
    rw [remove_of_resident hc hslot]
    exact hc.vacated hslot

/-! ## What runs keep -/

/-- The maps are in step in every state that a run comes to. -/
theorem Run.consistent {size threshold : Nat} (h : Run host size threshold s) :
    s.cache.Consistent s.pool := by
  -- The invariant is carried from call to call; what others do leaves keys and names.
  induction h with
  | start pool state => exact Cache.consistent_ofSize size threshold pool
  | call _ call fits hc =>
    cases call with
    | add place refs => exact add_consistent hc fits refs
    | touch key => exact (touch_moves host default key _).consistent hc
    | remove key => exact remove_consistent hc key
    | resize size => exact resize_consistent hc size
  | others _ pool state hextends hc => exact hc.of_extends hextends

/-- Whatever was done to a cache, successfully or not, its slots and its maps agree. -/
theorem Run.cache_reliable {size threshold : Nat} (h : Run host size threshold s) :
    s.cache.Reliable s.pool :=
  h.consistent.reliable

/-! ## A cache of two slots -/

/-- Surroundings in which writing fails while their state says so, and which grant fewer slots
than there are. -/
def meager : Cache.Host Bool where
  invalidate _ failing := failing
  writeBack _ := do if ← get then throw (.injected "sync") else return false
  requestSlots current failing := (some (current - 1), failing)

/-- Four collections, two of which have one name. -/
def fourCollections : Pool where
  collections := #[
    .ofRecord { id := 1, name := "/db/a", created := .epoch },
    .ofRecord { id := 2, name := "/db/b", created := .epoch },
    .ofRecord { id := 3, name := "/db/b", created := .epoch },
    .ofRecord { id := 4, name := "/db/d", created := .epoch }]

/-- A full cache with the first two of them. -/
def twoResidents : Hosted Bool :=
  Call.after meager
    (Call.after meager ⟨.ofSize 2 0, fourCollections, false⟩ (.add 0 1)) (.add 1 1)

/-- A run leads there. -/
theorem run_twoResidents : Run meager 2 0 twoResidents :=
  .call (.call (.start _ _) (.add 0 1) (by decide)) (.add 1 1) (by decide)

/-- The third collection cannot come in, because the second one cannot be written back. -/
def refused : Hosted Bool :=
  Call.after meager ⟨twoResidents.cache, twoResidents.pool, true⟩ (.add 2 1)

/-- The fourth collection comes in, and the cache loses a slot over it. -/
def shrunken : Hosted Bool :=
  Call.after meager ⟨refused.cache, refused.pool, false⟩ (.add 3 1)

/-- A run leads there. -/
theorem run_shrunken : Run meager 2 0 shrunken :=
  .call (.others (.call (.others run_twoResidents _ _ (.refl _)) (.add 2 1) (by decide)) _ _
    (.refl _)) (.add 3 1) (by decide)

/-- The cache can be relied on after a refusal and a loss of slots. -/
theorem cache_reliable_shrunken :
    Run meager 2 0 shrunken ∧ refused.cache.residents = [0, 1] ∧
      shrunken.cache.residents = [3] ∧ shrunken.cache.Reliable shrunken.pool :=
  ⟨run_shrunken, by decide, by decide, run_shrunken.cache_reliable⟩

end Hosted

end XmlIndex
