import XmlIndex.Collection.Budget
import XmlIndex.Collection.Cache.Hosted
import XmlIndex.Store.Basic

/-! # Catalogs

A catalog keeps the records of collections in a store, with a cache of the collections in
front.  A collection that leaves the cache is written if its record was changed. -/

namespace XmlIndex

namespace Catalog

/-- The name of the catalog's cache in a budget. -/
def cacheName : String := "collections"

/-- What the cache of a catalog depends on: the store, and those who grant slots. -/
structure Ground (μ : Type) where
  store : Store
  source : μ
  deriving Inhabited

variable {μ : Type}

/-- Writes a record with the lock. -/
def writeRecord (c : Collection) : Action Store Unit :=
  Store.locked .write do
    let _ ← Store.put .write (Record.key c.name) c.record.encode

/-- Asks for more slots. -/
def requestSlots [SlotSource μ] (current : Nat) (g : Ground μ) : Option Nat × Ground μ :=
  let (granted, source) := SlotSource.request cacheName current g.source
  (granted, { g with source })

/-- Runs an action on the store. -/
def onGroundStore {α : Type} (x : Action Store α) : Action (Ground μ) α :=
  Action.on (·.store) (fun store g => { g with store }) x

/-- A changed collection is written, and nothing is derived from collections. -/
def hosting [SlotSource μ] : Cache.Host (Ground μ) where
  invalidate := fun _ g => g
  writeBack := fun c => do
    if c.dirty then
      onGroundStore (writeRecord c)
      return true
    else return false
  requestSlots := requestSlots

end Catalog

/-- A catalog: its cache, the collections in memory, its store, and those who grant it slots. -/
abbrev Catalog (μ : Type) := Hosted (Catalog.Ground μ)

namespace Catalog

variable {μ : Type}

/-- A catalog with a cache of this size over a store.  Those who grant slots know of the cache. -/
def ofStore [SlotSource μ] (store : Store) (size threshold : Nat) (source : μ) : Catalog μ where
  cache := .ofSize size threshold
  pool := .empty
  host := { store, source := SlotSource.register cacheName size source }

/-- Runs an action on the store. -/
def onStore {α : Type} (x : Action Store α) : Action (Catalog μ) α :=
  Action.on (·.host) (fun host s => { s with host }) (onGroundStore x)

/-- The stored record of that name. -/
def load (name : String) : Action (Catalog μ) (Option Record) := do
  match ← onStore (Store.locked .read (Store.get (Record.key name))) with
  | none => return none
  | some slot =>
    let record ← Action.ofExcept (Record.decode slot.data)
    return some record

/-- Writes the record of a collection, whether it is in the cache or not. -/
def save (place : Pool.Place) : Action (Catalog μ) Unit := do
  onStore (writeRecord ((← get).pool.get place))
  modify fun s => s.withCollection place Collection.markClean

/-- Brings the collection of a record into memory. -/
def allocate (record : Record) : Action (Catalog μ) Pool.Place :=
  modifyGet fun s => (s.pool.size, { s with pool := s.pool.push (.ofRecord record) })

/-- Whether there is a collection of that name. -/
def isKnown (name : String) : Action (Catalog μ) Bool := do
  if ((← get).cache.getByName? name).isSome then return true
  let record? ← load name
  return record?.isSome

section Source

variable [SlotSource μ]

/-- Makes a collection, writes its record, and brings it into the cache. -/
def create (id : CollectionId) (name : String) (now : Timestamp) :
    Action (Catalog μ) Pool.Place := do
  if ← isKnown name then throw (.collectionExists name)
  -- The record is written first, so no collection is in the cache that is not stored.
  let place ← allocate { id, name, created := now }
  save place
  let _ ← Hosted.add hosting place 1
  return place

/-- The collection of that name, from the cache or else from the store. -/
def openNamed (name : String) : Action (Catalog μ) (Option Pool.Place) := do
  let s ← get
  match s.cache.getByName? name with
  | some place =>
    let _ ← Hosted.touch (s.pool.get place).key
    return some place
  | none =>
    match ← load name with
    | none => return none
    | some record =>
      -- What comes into memory is the record as it is stored.
      let place ← allocate record
      let _ ← Hosted.add hosting place 1
      return some place

/-- Takes the collection of that name out of the cache and out of the store; answers whether
the store had a record of it. -/
def remove (name : String) : Action (Catalog μ) Bool := do
  let s ← get
  match s.cache.getByName? name with
  | none => pure ()
  | some place =>
    let _ ← Hosted.remove hosting (s.pool.get place).key
  -- The resident is gone by now, whether or not the store lets go of the record.
  onStore (Store.locked .write (Store.remove .write (Record.key name)))

end Source

/-- Writes those of the collections whose records were changed; answers their number. -/
def saveChanged : List Pool.Place → Action (Catalog μ) Nat
  | [] => pure 0
  | place :: places => do
    if ((← get).pool.get place).dirty then
      save place
      let more ← saveChanged places
      return more + 1
    else saveChanged places

/-- Writes all residents of the cache whose records were changed; answers their number. -/
def sync : Action (Catalog μ) Nat := do
  saveChanged (← get).cache.residents

end Catalog

end XmlIndex
