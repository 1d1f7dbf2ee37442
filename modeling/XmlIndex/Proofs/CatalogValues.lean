import XmlIndex.Proofs.CacheAdmission
import XmlIndex.Proofs.CatalogCalls

/-! # What the catalog does to the values of its store

The statements on records (`Catalog.Untouched`, `Catalog.Saved`) are about what can be decoded.
Here are those on the bytes, which need no record to be read back: a read and a write that fails
leave all values as they are (`Catalog.SameValues`), and a write that succeeds puts the bytes of
one record under its name (`Catalog.Written`).  A name is known if it has a resident or a value
(`Catalog.isKnown_eq_ok`), and after all has been written back every resident with changes has its
bytes in the store (`Catalog.value?_of_sync`). -/

namespace XmlIndex

/-- Collections are found in the same slots under the same names. -/
theorem Cache.SameSlots.getByName? {c' c : Cache} (h : c'.SameSlots c) (name : String) :
    c'.getByName? name = c.getByName? name := by
  have hresident : c'.resident? = c.resident? := by
    funext slot
    rw [resident?, h.slots, resident?]
  have hget : c'.get? = c.get? := by
    funext key
    rw [get?, h.keys, hresident, get?]
  rw [Cache.getByName?, h.names, hget, Cache.getByName?]

/-- Those whom caches ask for slots never grant fewer than there are. -/
class LawfulSlotSource (μ : Type) [SlotSource μ] : Prop where
  le_of_request : ∀ (cache : String) (current : Nat) (source : μ) (size : Nat),
    (SlotSource.request cache current source).1 = some size → current ≤ size

instance : LawfulSlotSource (Option Budget) where
  le_of_request _ _ _ _ h := Nat.le_of_lt (Budget.lt_of_requestFrom h)

namespace Catalog

variable {μ : Type}

/-- The bytes of a record are stored under the name of its collection, which is clean; nothing
else has changed. -/
structure Written (place : Pool.Place) (t s : Catalog μ) : Prop where
  cache : t.cache = s.cache
  pool : t.pool = s.pool.modify place .markClean
  value? : ∀ key, t.host.store.value? key =
    if key = Record.key (s.pool.get place).name then some (s.pool.get place).record.encode
    else s.host.store.value? key

/-- Slots, maps and values have not changed; records of residents, locks, pins, and what the store
can do may have. -/
structure SameHoldings (t s : Catalog μ) : Prop where
  slots : t.cache.SameSlots s.cache
  pool : t.pool.Extends s.pool
  value? : ∀ key, t.host.store.value? key = s.host.store.value? key

variable {s t u : Catalog μ} {place : Pool.Place} {name : String} {e : Error} {g : Ground μ}

/-- The maps still fit the slots. -/
theorem SameHoldings.consistent (h : SameHoldings t s) (hc : s.cache.Consistent s.pool) :
    t.cache.Consistent t.pool := hc.congr h.slots.slots h.slots.keys h.slots.names h.pool

/-! ## Reading -/

/-- A name that is loaded has a value, and no value changes. -/
theorem load_eq_ok {record? : Option Record} (h : load name s = .ok record? t) :
    SameValues t s ∧ record?.isSome = (s.host.value? name).isSome ∧
      record? = s.host.stored? name := by
  rcases load_cases_value name s with ⟨_, _, h', hfacts⟩ | ⟨_, _, h', _⟩
  · rw [h] at h'
    obtain ⟨rfl, rfl⟩ := EStateM.Result.ok.inj h'
    exact hfacts
  · rw [h] at h'
    cases h'

/-- A failing load changes no value. -/
theorem load_eq_error (h : load name s = .error e t) : SameValues t s := by
  rcases load_cases_value name s with ⟨_, _, h', _⟩ | ⟨_, _, h', hvalues⟩
  · rw [h] at h'
    cases h'
  · rw [h] at h'
    obtain ⟨_, rfl⟩ := EStateM.Result.error.inj h'
    exact hvalues

/-- A name is known if it has a resident or a value. -/
theorem isKnown_eq_ok {known : Bool} (h : isKnown name s = .ok known t) :
    SameValues t s ∧
      known = ((s.cache.getByName? name).isSome || (s.host.value? name).isSome) := by
  rw [isKnown, Action.get_bind] at h
  -- A resident is known without asking the store.
  cases hfound : s.cache.getByName? name with
  | some place =>
    rw [hfound] at h
    obtain ⟨rfl, rfl⟩ := EStateM.Result.ok.inj h
    exact ⟨.refl s, rfl⟩
  | none =>
    rw [hfound, Option.isSome_none, if_neg Bool.false_ne_true] at h
    obtain ⟨record?, u, hload, h⟩ := Action.bind_eq_ok_iff.mp h
    obtain ⟨rfl, rfl⟩ := EStateM.Result.ok.inj h
    obtain ⟨hvalues, hsome, _⟩ := load_eq_ok hload
    exact ⟨hvalues, hsome⟩

/-- Where it cannot be told whether a name is known, no value changes. -/
theorem isKnown_eq_error (h : isKnown name s = .error e t) : SameValues t s := by
  rw [isKnown, Action.get_bind] at h
  split at h
  · cases h
  · rcases Action.bind_eq_error_iff.mp h with h | ⟨_, _, _, h⟩
    · exact load_eq_error h
    · cases h

/-! ## Writing -/

/-- A collection that is saved has its bytes under its name. -/
theorem save_eq_ok (h : save place s = .ok () t) : Written place t s := by
  rw [save_eq] at h
  split at h
  · next hwrite =>
    obtain ⟨_, rfl⟩ := EStateM.Result.ok.inj h
    exact ⟨rfl, rfl, writeRecord_value? hwrite⟩
  · cases h

/-- A failing save changes no value. -/
theorem save_eq_error (h : save place s = .error e t) : SameValues t s := by
  rw [save_eq] at h
  split at h
  · cases h
  · next hwrite =>
    obtain ⟨_, rfl⟩ := EStateM.Result.error.inj h
    exact ⟨rfl, rfl, writeRecord_eq_error hwrite⟩

/-- A collection that cannot be written back has changes, and nothing was written. -/
theorem writeBack_eq_error [SlotSource μ] {c : Collection} {g' : Ground μ}
    (h : hosting.writeBack c g = .error e g') :
    c.dirty = true ∧ ∃ store', writeRecord c g.store = .error e store' ∧
      g' = { g with store := store' } := by
  -- A clean collection is not written back at all.
  cases hdirty : c.dirty with
  | false =>
    rw [writeBack_of_clean hdirty] at h
    cases h
  | true =>
    rw [writeBack_of_dirty hdirty] at h
    split at h
    · cases h
    · next hwrite =>
      obtain ⟨rfl, rfl⟩ := EStateM.Result.error.inj h
      exact ⟨rfl, _, hwrite, rfl⟩

namespace Written

variable (h : Written place t s)

include h

/-- Writing changes no record in memory. -/
theorem sameUpToUse : t.pool.SameUpToUse s.pool := by
  rw [h.pool]
  exact s.pool.sameUpToUse_modify place fun c => ⟨_, _, _, rfl⟩

/-- The other collections are as clean as they were. -/
theorem dirty_of_ne {other : Pool.Place} (hne : other ≠ place) :
    (t.pool.get other).dirty = (s.pool.get other).dirty := by
  rw [h.pool, Pool.get_modify_of_ne hne]

/-- Its bytes are under its name. -/
theorem value?_self : t.host.value? (s.pool.get place).name =
    some (s.pool.get place).record.encode := by
  rw [Ground.value?, h.value?, if_pos rfl]

/-- Under the other names is what was there. -/
theorem value?_of_ne (hne : name ≠ (s.pool.get place).name) :
    t.host.value? name = s.host.value? name := by
  rw [Ground.value?, h.value?, if_neg fun hkey => hne (Record.key_inj hkey), Ground.value?]

end Written

/-! ## Writing back -/

/-- What is written back of collections with different names has its bytes in the store. -/
theorem saveChanged_eq_ok {places : List Pool.Place} {count : Nat}
    (hnames : (places.map fun place => (s.pool.get place).name).Nodup)
    (h : saveChanged places s = .ok count t) :
    t.cache = s.cache ∧ t.pool.SameUpToUse s.pool ∧
      (∀ name, (∀ place ∈ places, (s.pool.get place).name ≠ name) →
        t.host.value? name = s.host.value? name) ∧
      ∀ place ∈ places, (s.pool.get place).dirty = true →
        t.host.value? (s.pool.get place).name = some (s.pool.get place).record.encode := by
  -- Induction on the places: as the names differ, nothing later is written over the first one.
  induction places generalizing s count with
  | nil =>
    obtain ⟨_, rfl⟩ := EStateM.Result.ok.inj h
    exact ⟨rfl, .refl _, fun _ _ => rfl, fun _ hplace => (by cases hplace)⟩
  | cons place places ih =>
    obtain ⟨hnew, hnames⟩ := List.nodup_cons.mp hnames
    have hnew : ∀ other ∈ places, (s.pool.get other).name ≠ (s.pool.get place).name :=
      fun other hother heq => hnew (List.mem_map.mpr ⟨other, hother, heq⟩)
    rw [saveChanged, Action.get_bind] at h
    cases hdirty : (s.pool.get place).dirty with
    -- It has no changes, so nothing is claimed of it.
    | false =>
      rw [hdirty, if_neg Bool.false_ne_true] at h
      obtain ⟨hcache, hpool, hothers, hwritten⟩ := ih hnames h
      refine ⟨hcache, hpool, fun name hname => hothers name (List.forall_mem_cons.mp hname).2,
        List.forall_mem_cons.mpr ⟨fun hchanged => ?_, hwritten⟩⟩
      rw [hdirty] at hchanged
      cases hchanged
    | true =>
      rw [hdirty, if_pos rfl] at h
      obtain ⟨_, u, hsave, h⟩ := Action.bind_eq_ok_iff.mp h
      obtain ⟨more, v, hmore, h⟩ := Action.bind_eq_ok_iff.mp h
      obtain ⟨_, rfl⟩ := EStateM.Result.ok.inj h
      have hsaved := save_eq_ok hsave
      have hsame := hsaved.sameUpToUse
      -- Saving changes no name, so the others still differ.
      have hnames' : (places.map fun place => (u.pool.get place).name).Nodup := by
        simpa only [hsame.name] using hnames
      obtain ⟨hcache, hpool, hothers, hwritten⟩ := ih hnames' hmore
      simp only [hsame.name, hsame.record] at hothers hwritten
      refine ⟨hcache.trans hsaved.cache, hpool.trans hsame, fun name hname => ?_,
        List.forall_mem_cons.mpr ⟨fun _ => ?_, fun other hother hchanged => ?_⟩⟩
      · obtain ⟨hplace, hplaces⟩ := List.forall_mem_cons.mp hname
        rw [hothers name hplaces, hsaved.value?_of_ne fun heq => hplace heq.symm]
      -- The first one was written, and the others leave its name alone.
      · rw [hothers _ hnew, hsaved.value?_self]
      · have hne : other ≠ place := fun heq => hnew other hother (by rw [heq])
        rw [← hsaved.dirty_of_ne hne] at hchanged
        exact hwritten other hother hchanged

/-- After all has been written back, the bytes of every resident with changes are stored. -/
theorem value?_of_sync {count : Nat} (hc : s.cache.Consistent s.pool)
    (h : sync s = .ok count t) (hplace : place ∈ s.cache.residents)
    (hdirty : (s.pool.get place).dirty = true) :
    t.host.value? (s.pool.get place).name = some (s.pool.get place).record.encode :=
  (saveChanged_eq_ok hc.nodup_residents_name h).2.2.2 place hplace hdirty

/-! ## Slots -/

/-- A catalog loses no slots by asking for more. -/
theorem hosting_neverShrinks [SlotSource μ] [LawfulSlotSource μ] :
    (hosting : Cache.Host (Ground μ)).NeverShrinks :=
  fun current g => LawfulSlotSource.le_of_request cacheName current g.source

end Catalog

end XmlIndex
