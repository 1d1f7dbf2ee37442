import XmlIndex.Collection.Basic
import XmlIndex.SortedMap

/-! # Caches

A cache keeps a bounded number of collections in slots.  They are found by their key and by
their name: `keys` leads from a key to a slot, `names` from a name to a key.  A resident of the
cache is a collection in a slot.

The cache counts its uses, and the collections in it remember the count at which they were
last used.  The density of a collection is the number of its uses over the time since the last
one.  When room is needed, the resident with the smallest density leaves, and of several such
the one in the first slot; a resident that is pinned or locked for writing stays.

Densities are compared as fractions, without rounding. -/

namespace XmlIndex

namespace Collection

/-- The time since the last use, and at least one. -/
def age (c : Collection) (now : Nat) : Nat := max (now - c.timestamp) 1

/-- Whether the density of `a` is below that of `b`. -/
def isSparser (now : Nat) (a b : Collection) : Bool :=
  -- Two fractions are compared by their cross products.
  a.refs.toNat * b.age now < b.refs.toNat * a.age now

end Collection

/-- A cache of collections. -/
structure Cache where
  slots : List (Option Pool.Place)
  keys : SortedMap Nat Nat := .empty
  names : SortedMap String Nat := .empty
  uses : Nat := 0
  replacements : Nat := 0
  threshold : Nat
  deriving Inhabited

namespace Cache

/-- An empty cache that asks for more slots after more than `threshold` replacements. -/
def ofSize (size threshold : Nat) : Cache := { slots := List.replicate size none, threshold }

/-- The number of slots. -/
def capacity (c : Cache) : Nat := c.slots.length

/-- The number of residents. -/
def size (c : Cache) : Nat := c.keys.size

/-- Whether there is no resident. -/
def isEmpty (c : Cache) : Bool := c.keys.isEmpty

/-- The resident in a slot. -/
def resident? (c : Cache) (slot : Nat) : Option Pool.Place := c.slots.getD slot none

/-- The resident with this key. -/
def get? (c : Cache) (key : Nat) : Option Pool.Place := (c.keys.get? key).bind c.resident?

/-- The resident with this name. -/
def getByName? (c : Cache) (name : String) : Option Pool.Place := (c.names.get? name).bind c.get?

/-- The residents in the order of their slots. -/
def residents (c : Cache) : List Pool.Place := c.slots.filterMap id

/-- The first slot without a resident. -/
def freeSlot? (c : Cache) : Option Nat := c.slots.findIdx? Option.isNone

/-- The slots whose residents may leave, with these residents. -/
def candidates (c : Cache) (pool : Pool) : List (Nat × Collection) :=
  c.slots.zipIdx.filterMap fun (resident?, slot) => do
    let place ← resident?
    let collection := pool.get place
    -- A collection in use is passed over and never waited for.
    if collection.mayLeave then some (slot, collection) else none

/-- The sparser of two candidates; the first one if neither is. -/
def sparser (now : Nat) (best? : Option (Nat × Collection)) (candidate : Nat × Collection) :
    Option (Nat × Collection) :=
  match best? with
  | none => some candidate
  -- Of equals the first one stays, so the order of the slots decides.
  | some best => if candidate.2.isSparser now best.2 then some candidate else some best

/-- The slot whose resident leaves when room is needed. -/
def victim? (c : Cache) (pool : Pool) : Option Nat :=
  (((c.candidates pool).foldl (sparser c.uses) none).map (·.1))

/-- The cache with a collection in a slot. -/
def place (c : Cache) (slot : Nat) (place : Pool.Place) (collection : Collection) : Cache :=
  { c with
    slots := c.slots.set slot (some place)
    keys := c.keys.insert collection.key slot
    names := c.names.insert collection.name collection.key }

/-- The cache with an empty slot in place of one with this collection. -/
def vacate (c : Cache) (slot : Nat) (collection : Collection) : Cache :=
  { c with
    slots := c.slots.set slot none
    keys := c.keys.erase collection.key
    names := c.names.erase collection.name }

/-- The cache with these residents in the first of `size` slots. -/
def rebuild (c : Cache) (pool : Pool) (size : Nat) (residents : List Pool.Place) : Cache :=
  let collections := residents.map pool.get
  { c with
    -- The residents move up to the front.
    slots := residents.map some ++ List.replicate (size - residents.length) none
    keys := .ofList (collections.zipIdx.map fun (collection, slot) => (collection.key, slot))
    names := .ofList (collections.map fun collection => (collection.name, collection.key))
    replacements := 0 }

/-! ## Consistency -/

/-- Holds a key against the slot it leads to. -/
def checkKey (c : Cache) (pool : Pool) (key slot : Nat) : Except Error Unit :=
  match c.resident? slot with
  | none => .error (.cacheEmptySlot key slot)
  | some place =>
    let collection := pool.get place
    if collection.key ≠ key then .error (.cacheWrongKey slot collection.key key)
    else if c.names.get? collection.name ≠ some key then
      .error (.cacheWrongName collection.name key)
    else .ok ()

/-- Holds a name against the key it leads to. -/
def checkName (c : Cache) (name : String) (key : Nat) : Except Error Unit :=
  if c.keys.contains key then .ok () else .error (.cacheUnknownKey name key)

/-- Fails unless slots, keys and names agree. -/
def check (c : Cache) (pool : Pool) : Except Error Unit := do
  let count := c.residents.length
  if count ≠ c.keys.size ∨ count ≠ c.names.size then
    throw (.cacheSizes count c.keys.size c.names.size)
  c.keys.entries.forM fun (key, slot) => c.checkKey pool key slot
  c.names.entries.forM fun (name, key) => c.checkName name key

end Cache

end XmlIndex
