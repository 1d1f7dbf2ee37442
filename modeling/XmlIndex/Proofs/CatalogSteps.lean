import XmlIndex.Collection.Catalog
import XmlIndex.Proofs.CacheMoves
import XmlIndex.Proofs.RecordReading
import XmlIndex.Proofs.StoreCalls

/-! # What the catalog does to store and memory

What a catalog does outside of its cache is reading and writing single records.  A read leaves
all values as they are (`Catalog.SameValues`), and so does a write that fails; with the values the
records stay that can be decoded from them (`Catalog.Untouched`).  A write that succeeds puts the
record of one collection under its name and marks the collection clean (`Catalog.Saved`).  A
resident that is released is written like this, if it has to be. -/

namespace XmlIndex

namespace Catalog

variable {μ : Type}

/-- The value stored under the name of a collection. -/
def Ground.value? (g : Ground μ) (name : String) : Option Bytes := g.store.value? (Record.key name)

/-- The record stored under a name. -/
def Ground.stored? (g : Ground μ) (name : String) : Option Record :=
  (g.store.value? (Record.key name)).bind fun bs => (Record.decode bs).toOption

/-- Neither the cache, nor the collections, nor the stored values have changed. -/
structure SameValues (t s : Catalog μ) : Prop where
  cache : t.cache = s.cache
  pool : t.pool = s.pool
  value? : ∀ key, t.host.store.value? key = s.host.store.value? key

/-- Neither the cache, nor the collections, nor the stored records have changed. -/
structure Untouched (t s : Catalog μ) : Prop where
  cache : t.cache = s.cache
  pool : t.pool = s.pool
  stored? : ∀ name, t.host.stored? name = s.host.stored? name

/-- The record of a collection is stored under its name and the collection is clean; nothing
else has changed. -/
structure Saved (place : Pool.Place) (t s : Catalog μ) : Prop where
  cache : t.cache = s.cache
  pool : t.pool = s.pool.modify place .markClean
  stored? : ∀ name, t.host.stored? name =
    if name = (s.pool.get place).name then some (s.pool.get place).record
    else s.host.stored? name

variable {s t : Catalog μ} {place : Pool.Place} {g : Ground μ} {store store' : Store} {e : Error}

/-! ## Records in the store -/

section OnStore

variable {α : Type} {act : Action Store α} {a : α}

/-- A call of the store that succeeds does so for the catalog. -/
theorem onStore_of_ok (h : act s.host.store = .ok a store) :
    onStore act s = .ok a { s with host := { s.host with store } } :=
  Action.on_eq_ok_iff.mpr ⟨_, Action.on_eq_ok_iff.mpr ⟨store, h, rfl⟩, rfl⟩

/-- A call of the store that fails does so for the catalog. -/
theorem onStore_of_error (h : act s.host.store = .error e store) :
    onStore act s = .error e { s with host := { s.host with store } } :=
  Action.on_eq_error_iff.mpr ⟨_, Action.on_eq_error_iff.mpr ⟨store, h, rfl⟩, rfl⟩

end OnStore

/-- The stored records depend on nothing but the stored values. -/
theorem Ground.stored?_congr {g' : Ground μ}
    (h : ∀ key, g'.store.value? key = g.store.value? key) (name : String) :
    g'.stored? name = g.stored? name := by
  rw [stored?, h, stored?]

/-- A stored record is what the value under its name decodes to. -/
theorem stored?_eq_bind (g : Ground μ) (name : String) :
    g.stored? name = (g.value? name).bind fun bs => (Record.decode bs).toOption := rfl

/-- A state has its own values. -/
theorem SameValues.refl (s : Catalog μ) : SameValues s s := ⟨rfl, rfl, fun _ => rfl⟩

/-- With the values the records stay. -/
theorem SameValues.untouched (h : SameValues t s) : Untouched t s :=
  ⟨h.cache, h.pool, Ground.stored?_congr h.value?⟩

/-- Writing a record puts it under its name and leaves the other values. -/
theorem writeRecord_value? {c : Collection} (h : writeRecord c store = .ok () store')
    (key : Bytes) : store'.value? key =
      if key = Record.key c.name then some c.record.encode else store.value? key := by
  obtain ⟨_, _, hput, h⟩ := Action.bind_eq_ok_iff.mp (Store.locked_eq_ok h).2
  obtain ⟨_, rfl⟩ := EStateM.Result.ok.inj h
  rw [(Store.put_eq_ok hput).value?, Store.value?_place]

/-- A record that was written is stored under its name, if it reads back. -/
theorem writeRecord_eq_ok {c : Collection} (hback : c.record.ReadsBack)
    (h : writeRecord c g.store = .ok () store) (name : String) :
    ({ g with store } : Ground μ).stored? name =
      if name = c.name then some c.record else g.stored? name := by
  rw [Ground.stored?, writeRecord_value? h]
  -- Keys of records differ as their names do.
  by_cases hname : name = c.name
  · have hdecode : Record.decode c.record.encode = .ok c.record := hback
    rw [if_pos (congrArg Record.key hname), if_pos hname, Option.bind_some, hdecode,
      Except.toOption]
  · rw [if_neg fun hkey => hname (Record.key_inj hkey), if_neg hname, Ground.stored?]

/-- A record that could not be written has changed no value. -/
theorem writeRecord_eq_error {c : Collection} (h : writeRecord c store = .error e store')
    (key : Bytes) : store'.value? key = store.value? key := by
  rcases Store.locked_eq_error h with ⟨_, rfl⟩ | ⟨_, h⟩
  · rfl
  · rcases Action.bind_eq_error_iff.mp h with h | ⟨_, _, _, h⟩
    · exact (Store.put_eq_error h).1.value? key
    · cases h

/-! ## Saving and releasing -/

/-- To save a collection is to write its record and to mark it clean. -/
theorem save_eq (place : Pool.Place) (s : Catalog μ) :
    save place s =
      match writeRecord (s.pool.get place) s.host.store with
      | .ok _ store =>
        .ok () { s with pool := s.pool.modify place .markClean, host := { s.host with store } }
      | .error e store => .error e { s with host := { s.host with store } } := by
  rw [save, Action.get_bind]
  cases h : writeRecord (s.pool.get place) s.host.store with
  | ok _ store => exact Action.bind_of_ok (onStore_of_ok h)
  | error e store => exact Action.bind_of_error (onStore_of_error h)

/-- A collection is saved, or nothing has changed. -/
theorem save_cases (hback : (s.pool.get place).record.ReadsBack) :
    (∃ t, save place s = .ok () t ∧ Saved place t s) ∨
      ∃ e t, save place s = .error e t ∧ Untouched t s := by
  rw [save_eq]
  cases h : writeRecord (s.pool.get place) s.host.store with
  | ok _ store => exact .inl ⟨_, rfl, rfl, rfl, writeRecord_eq_ok hback h⟩
  | error e store =>
    exact .inr ⟨e, _, rfl, rfl, rfl, Ground.stored?_congr (writeRecord_eq_error h)⟩

section Source

variable [SlotSource μ]

/-- A changed collection is written back. -/
theorem writeBack_of_dirty {c : Collection} (h : c.dirty = true) (g : Ground μ) :
    hosting.writeBack c g =
      match writeRecord c g.store with
      | .ok _ store => .ok true { g with store }
      | .error e store => .error e { g with store } := by
  show (if c.dirty then _ else _ : Action (Ground μ) Bool) g = _
  rw [if_pos h]
  cases hw : writeRecord c g.store with
  | ok _ store => exact Action.bind_of_ok (Action.on_eq_ok_iff.mpr ⟨store, hw, rfl⟩)
  | error e store => exact Action.bind_of_error (Action.on_eq_error_iff.mpr ⟨store, hw, rfl⟩)

/-- A collection without changes is not written. -/
theorem writeBack_of_clean {c : Collection} (h : c.dirty = false) (g : Ground μ) :
    hosting.writeBack c g = .ok false g := by
  show (if c.dirty then _ else _ : Action (Ground μ) Bool) g = _
  rw [h]
  rfl

/-- A changed collection is released like it is saved, and another one stays as it is. -/
theorem release_eq_save (place : Pool.Place) (s : Catalog μ) :
    Hosted.release hosting place s =
      if (s.pool.get place).dirty then save place s else .ok () s := by
  -- Nothing is derived from the collections of a catalog.
  have hinvalidate : hosting.invalidate (s.pool.get place).name s.host = s.host := rfl
  rw [Hosted.release_eq, hinvalidate]
  cases hdirty : (s.pool.get place).dirty with
  | false => rw [writeBack_of_clean hdirty, if_neg Bool.false_ne_true]
  | true =>
    rw [writeBack_of_dirty hdirty, if_pos rfl, save_eq]
    cases writeRecord (s.pool.get place) s.host.store <;> rfl

/-- A collection whose record is stored, if it is clean, is released as if it were saved. -/
theorem release_cases (hback : (s.pool.get place).record.ReadsBack)
    (hclean : (s.pool.get place).dirty = false →
      s.host.stored? (s.pool.get place).name = some (s.pool.get place).record) :
    (∃ t, Hosted.release hosting place s = .ok () t ∧ Saved place t s) ∨
      ∃ e t, Hosted.release hosting place s = .error e t ∧ Untouched t s := by
  rw [release_eq_save]
  cases hdirty : (s.pool.get place).dirty with
  | true => exact save_cases hback
  | false =>
    -- A clean collection is marked clean without effect, and its record is there already.
    have hpool : s.pool.modify place .markClean = s.pool :=
      s.pool.modify_of_fixed place (Collection.markClean_of_clean hdirty)
    refine .inl ⟨s, rfl, rfl, hpool.symm, fun name => ?_⟩
    split
    · next hname => rw [hname, hclean hdirty]
    · rfl

end Source

/-! ## Loading -/

/-- What is loaded is the record in the value of the name. -/
theorem load_cases_value (name : String) (s : Catalog μ) :
    (∃ record? t, load name s = .ok record? t ∧ SameValues t s ∧
      record?.isSome = (s.host.value? name).isSome ∧ record? = s.host.stored? name) ∨
      ∃ e t, load name s = .error e t ∧ SameValues t s := by
  rw [load]
  cases h : Store.locked .read (Store.get (Record.key name)) s.host.store with
  -- Neither a missing lock nor a planned failure changes a value.
  | error e store =>
    refine .inr ⟨e, _, Action.bind_of_error (onStore_of_error h), rfl, rfl, fun key => ?_⟩
    rcases Store.locked_eq_error h with ⟨_, rfl⟩ | ⟨_, h⟩
    · rfl
    · exact (Store.get_eq_error h).1.value? key
  | ok slot? store =>
    obtain ⟨hslot, hsame⟩ := Store.get_eq_ok (Store.locked_eq_ok h).2
    have hvalues : SameValues { s with host := { s.host with store } } s :=
      ⟨rfl, rfl, hsame.value?⟩
    rw [Action.bind_of_ok (onStore_of_ok h), stored?_eq_bind, Ground.value?, Store.value?, ← hslot]
    cases slot? with
    -- Nothing is stored under the name.
    | none => exact .inl ⟨none, _, rfl, hvalues, rfl, rfl⟩
    -- There is a value; whether it is a record is seen when it is decoded.
    | some slot =>
      cases hdecode : Record.decode slot.data with
      | ok record =>
        refine .inl ⟨some record, _, Action.bind_of_ok ?_, hvalues, rfl, ?_⟩
        · simp only [hdecode]
          rfl
        · simp only [Option.map_some, Option.bind_some, hdecode]
          rfl
      | error e => exact .inr ⟨e, _, Action.bind_of_error (by simp only [hdecode]; rfl), hvalues⟩

/-- What is loaded is the stored record, or nothing has changed. -/
theorem load_cases (name : String) (s : Catalog μ) :
    (∃ t, load name s = .ok (s.host.stored? name) t ∧ Untouched t s) ∨
      ∃ e t, load name s = .error e t ∧ Untouched t s := by
  rcases load_cases_value name s with ⟨_, t, hload, hsame, _, rfl⟩ | ⟨e, t, hload, hsame⟩
  · exact .inl ⟨t, hload, hsame.untouched⟩
  · exact .inr ⟨e, t, hload, hsame.untouched⟩

end Catalog

end XmlIndex
