import XmlIndex.Action
import XmlIndex.Collection.Cache.Basic

/-! # Caches at work

A cache lives in surroundings, its host, that it needs for three things: what was derived from
a collection becomes invalid when the collection leaves, a changed collection has to be
written back before it leaves, and more slots are asked for after many replacements.

`add` brings a collection into the cache.  A collection with its key that is there already is
used instead; one with its name under another key leaves first.  If the cache is full, the
victim leaves (`Cache.victim?`) and is the answer.  A collection that cannot be written back
stays, and the operation fails. -/

namespace XmlIndex

/-- What a cache needs of surroundings with the state `σ`. -/
structure Cache.Host (σ : Type) where
  /-- What was derived from the collection of this name becomes invalid. -/
  invalidate : String → σ → σ
  /-- Writes a collection back if that is needed; answers whether it was written. -/
  writeBack : Collection → Action σ Bool
  /-- Asks for more slots for a cache that has `current` of them; answers its new size. -/
  requestSlots : (current : Nat) → σ → Option Nat × σ

/-- A cache, the collections in memory, and the state of the surroundings. -/
structure Hosted (σ : Type) where
  cache : Cache
  pool : Pool
  host : σ
  deriving Inhabited

namespace Hosted

variable {σ : Type}

/-- The state with a changed cache. -/
def withCache (s : Hosted σ) (f : Cache → Cache) : Hosted σ := { s with cache := f s.cache }

/-- The state with a changed collection. -/
def withCollection (s : Hosted σ) (place : Pool.Place) (f : Collection → Collection) : Hosted σ :=
  { s with pool := s.pool.modify place f }

/-- Uses a resident once more, now. -/
def use (place : Pool.Place) : Action (Hosted σ) Unit :=
  modify fun s => s.withCollection place fun c => c.touch s.cache.uses

/-- Counts a use of the cache. -/
def countUse : Action (Hosted σ) Unit :=
  modify fun s => s.withCache fun c => { c with uses := c.uses + 1 }

/-- Prepares a collection for leaving: what was derived from it becomes invalid, and it is
written back. -/
def release (host : Cache.Host σ) (place : Pool.Place) : Action (Hosted σ) Unit := do
  let collection := (← get).pool.get place
  modify fun s => { s with host := host.invalidate collection.name s.host }
  -- Whether there is something to write is for the host to say.
  let written ← Action.on (·.host) (fun h s => { s with host := h }) (host.writeBack collection)
  if written then modify fun s => s.withCollection place Collection.markClean

/-- Prepares collections for leaving, in order. -/
def releaseAll (host : Cache.Host σ) : List Pool.Place → Action (Hosted σ) Unit
  | [] => pure ()
  | place :: places => do
    release host place
    releaseAll host places

/-- Makes the resident of a slot leave; it is the answer. -/
def evict (host : Cache.Host σ) (slot : Nat) : Action (Hosted σ) (Option Pool.Place) := do
  match (← get).cache.resident? slot with
  | none => return none
  | some place =>
    release host place
    -- The slot is emptied only when the collection has been written.
    modify fun s => s.withCache fun c => c.vacate slot (s.pool.get place)
    return some place

/-- Changes the number of slots.  The first residents stay, as many as there are slots for. -/
def resize (host : Cache.Host σ) (size : Nat) : Action (Hosted σ) Unit := do
  let residents := (← get).cache.residents
  -- When one of them cannot be written back, the slots stay as they are.
  releaseAll host (residents.drop size)
  modify fun s => s.withCache fun c => c.rebuild s.pool size (residents.take size)

/-- Asks for more slots if there were more replacements than the threshold says. -/
def grow (host : Cache.Host σ) : Action (Hosted σ) Unit := do
  let cache := (← get).cache
  if cache.threshold < cache.replacements then
    let granted ← modifyGet fun s =>
      let (granted, h) := host.requestSlots cache.capacity s.host
      (granted, { s with host := h })
    match granted with
    | some size => resize host size
    -- After a refusal counting begins anew.
    | none => modify fun s => s.withCache fun c => { c with replacements := 0 }

/-- Makes the resident with this name leave, if there is one. -/
def evictName (host : Cache.Host σ) (name : String) : Action (Hosted σ) Unit := do
  let cache := (← get).cache
  match (cache.names.get? name).bind cache.keys.get? with
  | none => pure ()
  | some slot =>
    let _ ← evict host slot

/-- A slot without a resident, and the collection that left for it. -/
def makeRoom (host : Cache.Host σ) : Action (Hosted σ) (Nat × Option Pool.Place) := do
  let s ← get
  match s.cache.freeSlot? with
  | some slot => return (slot, none)
  | none =>
    match s.cache.victim? s.pool with
    -- Every resident is pinned or locked for writing.
    | none => throw (.cacheFull s.cache.capacity)
    | some slot =>
      let evicted ← evict host slot
      return (slot, evicted)

/-- Brings in a collection that is not there, with this number of uses. -/
def insert (host : Cache.Host σ) (place : Pool.Place) (refs : UInt32) :
    Action (Hosted σ) (Option Pool.Place) := do
  -- A name leads to one resident, so another one of this name has to leave first.
  evictName host ((← get).pool.get place).name
  modify fun s => s.withCollection place fun c =>
    { c with refs, timestamp := s.cache.uses }
  let (slot, evicted) ← makeRoom host
  modify fun s => s.withCache fun c => c.place slot place (s.pool.get place)
  if evicted.isSome then
    -- Only what left for want of room counts as a replacement.
    modify fun s => s.withCache fun c => { c with replacements := c.replacements + 1 }
    grow host
  return evicted

/-- Brings in a collection; answers the one that left for it. -/
def add (host : Cache.Host σ) (place : Pool.Place) (refs : UInt32) :
    Action (Hosted σ) (Option Pool.Place) := do
  countUse
  let s ← get
  match s.cache.get? (s.pool.get place).key with
  | some resident =>
    -- The resident stays, and the collection that came is left aside.
    use resident
    return none
  | none => insert host place refs

/-- Uses the resident with this key; answers whether there is one. -/
def touch (key : Nat) : Action (Hosted σ) Bool := do
  match (← get).cache.get? key with
  | none => return false
  | some place =>
    countUse
    use place
    return true

/-- Takes the resident with this key out of the cache, without writing it back. -/
def remove (host : Cache.Host σ) (key : Nat) : Action (Hosted σ) (Option Pool.Place) := do
  let s ← get
  match s.cache.keys.get? key with
  | none => return none
  | some slot =>
    match s.cache.resident? slot with
    | none =>
      modify fun s => s.withCache fun c => { c with keys := c.keys.erase key }
      return none
    | some place =>
      let name := (s.pool.get place).name
      modify fun s => s.withCache fun c =>
        { c with
          slots := c.slots.set slot none
          keys := c.keys.erase key
          -- The name may have come to lead to another key.
          names := if c.names.get? name = some key then c.names.erase name else c.names }
      modify fun s => { s with host := host.invalidate name s.host }
      return some place

end Hosted

end XmlIndex
