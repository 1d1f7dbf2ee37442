import XmlIndex.Collection.Record

/-! # Collections

A collection in memory: its record, whether the record was changed since it was last written,
and what decides how long the collection stays in the cache, which is how often it was used,
when it was last used, whether it is pinned, and who holds its lock.  Key and name stay what
they were when it was brought into memory, whatever becomes of the record.

Collections in memory are shared, so they are kept in a pool and named by their place in it. -/

namespace XmlIndex

/-- A collection in memory. -/
structure Collection where
  key : Nat
  name : String
  record : Record
  refs : UInt32 := 0
  timestamp : Nat := 0
  readers : Nat := 0
  hasWriter : Bool := false
  pinned : Bool := false
  dirty : Bool := false
  deriving DecidableEq, Inhabited

namespace Collection

/-- The collection of a record. -/
def ofRecord (record : Record) : Collection :=
  { key := record.id.toNat, name := record.name, record }

/-- The collection with a changed record. -/
def update (c : Collection) (f : Record → Record) : Collection :=
  { c with record := f c.record, dirty := true }

/-- The collection with one more document. -/
def addDocument (c : Collection) (name : String) : Collection :=
  c.update fun r => { r with documents := r.documents ++ [name] }

/-- The collection after its record was written. -/
def markClean (c : Collection) : Collection := { c with dirty := false }

/-- The collection used once more, at this time. -/
def touch (c : Collection) (time : Nat) : Collection :=
  { c with refs := c.refs + 1, timestamp := time }

/-- Whether the lock can be read while it is held as it is. -/
def isReadable (c : Collection) : Bool := !c.hasWriter

/-- Whether the collection may leave the cache. -/
def mayLeave (c : Collection) : Bool := c.isReadable && !c.pinned

/-- Tries to take the lock; answers whether it was taken. -/
def tryLock (c : Collection) (mode : LockMode) : Bool × Collection :=
  match mode with
  | .read =>
    if c.hasWriter then (false, c) else (true, { c with readers := c.readers + 1 })
  | .write =>
    if c.hasWriter || c.readers != 0 then (false, c) else (true, { c with hasWriter := true })

/-- Gives the lock back. -/
def unlock (c : Collection) (mode : LockMode) : Collection :=
  match mode with
  | .read => { c with readers := c.readers - 1 }
  | .write => { c with hasWriter := false }

end Collection

/-- The collections in memory. -/
structure Pool where
  collections : Array Collection

namespace Pool

/-- The place of a collection in the pool. -/
abbrev Place := Nat

/-- The pool without collections. -/
def empty : Pool := ⟨#[]⟩

instance : Inhabited Pool := ⟨empty⟩

/-- The number of collections. -/
def size (p : Pool) : Nat := p.collections.size

/-- The collection at a place. -/
def get (p : Pool) (place : Place) : Collection := p.collections[place]?.getD default

/-- The pool with one more collection, whose place is the size of the pool before. -/
def push (p : Pool) (c : Collection) : Pool := ⟨p.collections.push c⟩

/-- The pool with another collection at a place. -/
def set (p : Pool) (place : Place) (c : Collection) : Pool :=
  ⟨p.collections.setIfInBounds place c⟩

/-- The pool with a changed collection at a place. -/
def modify (p : Pool) (place : Place) (f : Collection → Collection) : Pool :=
  p.set place (f (p.get place))

/-- A new collection is at the place behind the others. -/
theorem get_push_size (p : Pool) (c : Collection) : (p.push c).get p.size = c := by
  simp [get, push, size]

/-- The others stay at their places. -/
theorem get_push_of_lt (p : Pool) (c : Collection) {place : Place} (h : place < p.size) :
    (p.push c).get place = p.get place := by
  simp only [get, push, size] at *
  rw [Array.getElem?_push, if_neg (Nat.ne_of_lt h)]

/-- A collection that is set is at its place. -/
theorem get_set_self (p : Pool) (c : Collection) {place : Place} (h : place < p.size) :
    (p.set place c).get place = c := by
  simp only [size] at h
  simp [get, set, h]

/-- The others stay at their places. -/
theorem get_set_of_ne (p : Pool) (c : Collection) {place other : Place} (h : place ≠ other) :
    (p.set place c).get other = p.get other := by
  simp [get, set, h]

/-- Setting a collection makes no place. -/
@[simp] theorem size_set (p : Pool) (c : Collection) (place : Place) :
    (p.set place c).size = p.size := by
  simp [size, set]

end Pool

end XmlIndex
