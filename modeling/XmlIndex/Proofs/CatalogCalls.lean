import XmlIndex.Proofs.CatalogMoves

/-! # What the calls of a catalog do

For every call there is one lemma on how memory and store agree after it, whether it answered or
failed, and on what has become of the records of the names. -/

namespace XmlIndex

namespace Catalog

variable {μ : Type} {s t u : Catalog μ} {place : Pool.Place} {name : String} {e : Error}

/-! ## Saving -/

/-- Saving a resident changes the record of no name. -/
theorem save_kept (h : Agrees s) (hplace : place ∈ s.cache.residents) :
    Kept (Action.stateOf (save place s)) s := by
  rcases save_cases (h.faithful place hplace).readsBack with ⟨t, hsave, hsaved⟩ | ⟨e, t, hsave,
    huntouched⟩
  · rw [hsave]
    exact hsaved.kept h hplace
  · rw [hsave]
    exact h.alike huntouched.alike

/-- Saving what has changed goes through all residents, or stops with nothing lost. -/
theorem saveChanged_cases {places : List Pool.Place} (h : Agrees s)
    (hplaces : ∀ place ∈ places, place ∈ s.cache.residents) :
    (∃ count t, saveChanged places s = .ok count t ∧ Kept t s ∧ t.cache = s.cache ∧
      (∀ place, (s.pool.get place).dirty = false → (t.pool.get place).dirty = false) ∧
      ∀ place ∈ places, (t.pool.get place).dirty = false) ∨
    ∃ e t, saveChanged places s = .error e t ∧ Kept t s := by
  -- Induction on the places; what is saved first is clean from then on.
  induction places generalizing s with
  | nil => exact .inl ⟨0, s, rfl, h.kept, rfl, fun _ => id, by simp⟩
  | cons place places ih =>
    obtain ⟨hplace, hplaces⟩ := List.forall_mem_cons.mp hplaces
    rw [saveChanged, Action.get_bind]
    cases hdirty : (s.pool.get place).dirty with
    -- It has no changes and is passed over.
    | false =>
      rw [if_neg Bool.false_ne_true]
      rcases ih h hplaces with ⟨count, t, hsave, hkept, hcache, hclean, hall⟩ | hfailed
      · exact .inl ⟨count, t, hsave, hkept, hcache, hclean,
          List.forall_mem_cons.mpr ⟨hclean place hdirty, hall⟩⟩
      · exact .inr hfailed
    | true =>
      rw [if_pos rfl]
      rcases save_cases (h.faithful place hplace).readsBack with ⟨u, hsave, hsaved⟩ | ⟨e, u, hsave,
        huntouched⟩
      · have hkept := hsaved.kept h hplace
        rw [Action.bind_of_ok hsave]
        rw [← hsaved.cache] at hplaces
        -- It is saved, and with the agreement kept the others follow.
        rcases ih hkept.agrees hplaces with
          ⟨count, t, hmore, hkept', hcache, hclean, hall⟩ | ⟨e, t, hmore, hkept'⟩
        · refine .inl ⟨count + 1, t, Action.bind_of_ok hmore, hkept'.trans hkept,
            hcache.trans hsaved.cache, fun other hother => hclean other (hsaved.clean hother),
            List.forall_mem_cons.mpr ⟨?_, hall⟩⟩
          exact hclean place (hsaved.dirty (h.lt_size hplace))
        · exact .inr ⟨e, t, Action.bind_of_error hmore, hkept'.trans hkept⟩
      · exact .inr ⟨e, u, Action.bind_of_error hsave, h.alike huntouched.alike⟩

/-- Where all residents are clean, what is stored is what there is. -/
theorem Agrees.stored?_eq_record? (h : Agrees s)
    (hclean : ∀ place ∈ s.cache.residents, (s.pool.get place).dirty = false) (name : String) :
    s.host.stored? name = record? s name := by
  rcases h.record?_cases name with ⟨place, hplace, rfl, hrecord⟩ | ⟨_, hrecord⟩
  · rw [hrecord, (h.faithful place hplace).stored? (hclean place hplace)]
  · exact hrecord.symm

/-- Either everything is saved, or nothing is lost. -/
theorem sync_cases (h : Agrees s) :
    (∃ count t, sync s = .ok count t ∧ Kept t s ∧
      (∀ place ∈ t.cache.residents, (t.pool.get place).dirty = false) ∧
      ∀ name, t.host.stored? name = record? t name) ∨
    ∃ e t, sync s = .error e t ∧ Kept t s := by
  rcases saveChanged_cases h fun _ => id with ⟨count, t, hsave, hkept, hcache, _, hall⟩ | hfailed
  · rw [← hcache] at hall
    exact .inl ⟨count, t, hsave, hkept, hall, hkept.agrees.stored?_eq_record? hall⟩
  · exact .inr hfailed

/-- Writing back changes the record of no name. -/
theorem sync_kept (h : Agrees s) : Kept (Action.stateOf (sync s)) s := by
  rcases sync_cases h with ⟨count, t, hsync, hkept, _⟩ | ⟨e, t, hsync, hkept⟩
  · exact hsync ▸ hkept
  · exact hsync ▸ hkept

/-- After all has been written back, the store has the record of every name. -/
theorem sync_eq_ok (h : Agrees s) {count : Nat} (hsync : sync s = .ok count t) :
    (∀ place ∈ t.cache.residents, (t.pool.get place).dirty = false) ∧
      ∀ name, t.host.stored? name = record? t name := by
  rcases sync_cases h with ⟨_, _, hsync', _, hdone⟩ | ⟨_, _, hsync', _⟩
  · rw [hsync] at hsync'
    obtain ⟨rfl, rfl⟩ := EStateM.Result.ok.inj hsync'
    exact hdone
  · rw [hsync] at hsync'
    cases hsync'

/-! ## Bringing collections into memory -/

/-- The state with the collection of a record in memory. -/
def allocated (s : Catalog μ) (record : Record) : Catalog μ :=
  { s with pool := s.pool.push (.ofRecord record) }

/-- A collection that is only in memory makes no difference. -/
theorem alike_allocated (s : Catalog μ) (record : Record) : Alike (s.allocated record) s where
  slots := ⟨rfl, rfl, rfl⟩
  pool := s.pool.extends_push _
  record place hplace := by rw [allocated, Pool.get_push_of_lt _ _ hplace]
  dirty place hplace := by rw [allocated, Pool.get_push_of_lt _ _ hplace]
  stored? _ := rfl

/-- It is the collection of the record. -/
theorem get_allocated (s : Catalog μ) (record : Record) :
    (s.allocated record).pool.get s.pool.size = .ofRecord record :=
  Pool.get_push_size s.pool _

/-- It has a place of its own. -/
theorem lt_size_allocated (s : Catalog μ) (record : Record) :
    s.pool.size < (s.allocated record).pool.size := by
  simp [allocated, Pool.size, Pool.push]

/-- The rest goes on with its place. -/
theorem allocate_bind {α : Type} (record : Record) (f : Pool.Place → Action (Catalog μ) α)
    (s : Catalog μ) : (allocate record >>= f) s = f s.pool.size (s.allocated record) := rfl

/-- The name is known if it has a record. -/
theorem isKnown_cases (name : String) (s : Catalog μ) :
    (∃ t, isKnown name s = .ok (record? s name).isSome t ∧ Untouched t s) ∨
      ∃ e t, isKnown name s = .error e t ∧ Untouched t s := by
  rw [isKnown, Action.get_bind, record?]
  cases s.cache.getByName? name with
  | some place => exact .inl ⟨s, rfl, rfl, rfl, fun _ => rfl⟩
  | none =>
    rw [Option.isSome_none, if_neg Bool.false_ne_true]
    -- Without a resident the store is asked.
    rcases load_cases name s with ⟨t, hload, huntouched⟩ | ⟨e, t, hload, huntouched⟩
    · exact .inl ⟨t, Action.bind_of_ok hload, huntouched⟩
    · exact .inr ⟨e, t, Action.bind_of_error hload, huntouched⟩

/-- Without a record of a name no resident has the name. -/
theorem Agrees.absent_of_record? (h : Agrees s) (hname : record? s name = none) :
    ∀ place ∈ s.cache.residents, (s.pool.get place).name ≠ name := by
  rintro place hplace rfl
  rw [h.record?_of_resident hplace] at hname
  cases hname

variable [SlotSource μ]

/-! ## Opening -/

/-- Touching a resident succeeds and changes the record of no name and of no collection. -/
theorem touch_kept (h : Agrees s) (place : Pool.Place) (key : Nat) :
    ∃ found t, Hosted.touch key s = .ok found t ∧ Kept t s ∧
      (t.pool.get place).record = (s.pool.get place).record := by
  have hmoves := Hosted.touch_moves hosting default key s
  obtain ⟨found, t, htouch, _⟩ := Hosted.exists_touch key s
  rw [htouch] at hmoves
  exact ⟨found, t, htouch, moves_kept h hmoves, hmoves.sameUpToUse.record place⟩

omit [SlotSource μ] in
/-- The collection of a stored record may come in, as nothing is new about it. -/
theorem Agrees.waits_allocated (h : Agrees s) {record : Record}
    (hstored : s.host.stored? name = some record)
    (habsent : ∀ place ∈ s.cache.residents, (s.pool.get place).name ≠ name) :
    Waits (s.allocated record) s.pool.size := by
  obtain ⟨rfl, hback⟩ := h.stored? name record hstored
  have halike := alike_allocated s record
  have hget := get_allocated s record
  -- It has its name, it is read back, it is stored, it is clean, and no resident has its name.
  refine ⟨⟨?_, ?_, fun _ => ?_⟩, lt_size_allocated s record, ?_, fun other hother => ?_⟩
  · rw [hget]
    rfl
  · rw [hget]
    exact hback
  · rw [hget, halike.stored?]
    exact hstored
  · rw [hget]
    rfl
  · rw [halike.mem_residents_iff] at hother
    rw [hget, halike.pool.name other (h.lt_size hother)]
    exact habsent other hother

/-- A stored record comes into memory as it is, and no name loses its record on the way. -/
theorem add_allocated_cases (h : Agrees s) {record : Record}
    (hstored : s.host.stored? name = some record)
    (habsent : ∀ place ∈ s.cache.residents, (s.pool.get place).name ≠ name) :
    (∃ evicted? t, Hosted.add hosting s.pool.size 1 (s.allocated record) = .ok evicted? t ∧
      Kept t s ∧ (t.pool.get s.pool.size).record = record) ∨
    ∃ e t, Hosted.add hosting s.pool.size 1 (s.allocated record) = .error e t ∧ Kept t s := by
  have hallocated := h.alike (alike_allocated s record)
  have hkept := (add_kept hallocated.agrees (h.waits_allocated hstored habsent) 1).trans hallocated
  have hsame := Hosted.add_sameUpToUse hosting hallocated.agrees.consistent s.pool.size 1
  -- Whether it comes in or not, all records are kept.
  cases hadd : Hosted.add hosting s.pool.size 1 (s.allocated record) with
  | ok evicted? t =>
    rw [hadd] at hkept hsame
    have hrecord : (t.pool.get s.pool.size).record =
        ((s.allocated record).pool.get s.pool.size).record := hsame.record s.pool.size
    rw [get_allocated] at hrecord
    exact .inl ⟨evicted?, t, rfl, hkept, hrecord⟩
  | error e t =>
    rw [hadd] at hkept
    exact .inr ⟨e, t, rfl, hkept⟩

/-- Opening a name, step by step. -/
theorem openNamed_eq (name : String) (s : Catalog μ) :
    openNamed name s =
      match s.cache.getByName? name with
      | some place =>
        match Hosted.touch (s.pool.get place).key s with
        | .error e t => .error e t
        | .ok _ t => .ok (some place) t
      | none =>
        match load name s with
        | .error e t => .error e t
        | .ok none t => .ok none t
        | .ok (some record) t =>
          match Hosted.add hosting t.pool.size 1 (t.allocated record) with
          | .error e u => .error e u
          | .ok _ u => .ok (some t.pool.size) u := by
  rw [openNamed, Action.get_bind]
  cases s.cache.getByName? name with
  | some place =>
    dsimp only
    cases htouch : Hosted.touch (s.pool.get place).key s with
    | error e t => exact Action.bind_of_error htouch
    | ok _ t => exact Action.bind_of_ok htouch
  | none =>
    dsimp only
    -- Not in the cache, so the store is asked for the record.
    cases hload : load name s with
    | error e t => exact Action.bind_of_error hload
    | ok record? t =>
      refine (Action.bind_of_ok hload).trans ?_
      cases record? with
      | none => rfl
      | some record =>
        dsimp only
        rw [allocate_bind]
        cases hadd : Hosted.add hosting t.pool.size 1 (t.allocated record) with
        | error e u => exact Action.bind_of_error hadd
        | ok _ u => exact Action.bind_of_ok hadd

/-- Opening a name answers a collection with its record and changes the record of no name. -/
theorem openNamed_cases (h : Agrees s) (name : String) :
    (∃ place? t, openNamed name s = .ok place? t ∧ Kept t s ∧
      place?.map (fun place => (t.pool.get place).record) = record? s name) ∨
    ∃ e t, openNamed name s = .error e t ∧ Kept t s := by
  rw [openNamed_eq]
  -- A resident is only marked as used; otherwise the name is loaded.
  cases hfound : s.cache.getByName? name with
  | some place =>
    obtain ⟨hplace, rfl⟩ := (h.consistent.getByName?_eq_some_iff _ _).mp hfound
    obtain ⟨found, t, htouch, hkept, hrecord⟩ := touch_kept h place (s.pool.get place).key
    simp only [htouch]
    refine .inl ⟨some place, t, rfl, hkept, ?_⟩
    rw [h.record?_of_resident hplace, Option.map_some, hrecord]
  | none =>
    have habsent := (h.consistent.getByName?_eq_none_iff name).mp hfound
    rw [h.record?_of_absent habsent]
    rcases load_cases name s with ⟨t, hload, huntouched⟩ | ⟨e, t, hload, huntouched⟩
    -- A load leaves the catalog as it was, so the name is still absent.
    · have ht := h.alike huntouched.alike
      rw [hload]
      -- Only a name that is stored comes into memory.
      cases hstored : s.host.stored? name with
      | none => exact .inl ⟨none, t, rfl, ht, rfl⟩
      | some record =>
        rw [← huntouched.stored?] at hstored
        rw [← huntouched.cache, ← huntouched.pool] at habsent
        rcases add_allocated_cases ht.agrees hstored habsent with
          ⟨_, u, hadd, hkept, hrecord⟩ | ⟨e, u, hadd, hkept⟩
        · simp only [hadd]
          refine .inl ⟨some t.pool.size, u, rfl, hkept.trans ht, ?_⟩
          rw [Option.map_some, hrecord]
        · simp only [hadd]
          exact .inr ⟨e, u, rfl, hkept.trans ht⟩
    · rw [hload]
      exact .inr ⟨e, t, rfl, h.alike huntouched.alike⟩

/-- Opening a name changes the record of no name. -/
theorem openNamed_kept (h : Agrees s) (name : String) :
    Kept (Action.stateOf (openNamed name s)) s := by
  rcases openNamed_cases h name with ⟨place?, t, hopen, hkept, _⟩ | ⟨e, t, hopen, hkept⟩
  · exact hopen ▸ hkept
  · exact hopen ▸ hkept

/-- What is opened has the record of the name, and it is nothing if there is none. -/
theorem openNamed_eq_ok (h : Agrees s) {place? : Option Pool.Place}
    (hopen : openNamed name s = .ok place? t) :
    place?.map (fun place => (t.pool.get place).record) = record? s name := by
  rcases openNamed_cases h name with ⟨_, _, hopen', _, hrecord⟩ | ⟨_, _, hopen', _⟩
  · rw [hopen] at hopen'
    obtain ⟨rfl, rfl⟩ := EStateM.Result.ok.inj hopen'
    exact hrecord
  · rw [hopen] at hopen'
    cases hopen'

/-! ## Creating -/

/-- That a collection exists is not among the causes for which a record cannot be written. -/
theorem writeRecord_ne_collectionExists {c : Collection} {store store' : Store}
    (h : writeRecord c store = .error e store') (name : String) : e ≠ .collectionExists name := by
  rintro rfl
  -- Without the lock that is the cause, and with it the store's own check.
  cases hfree : store.isFree .write with
  | false =>
    rw [writeRecord, Store.locked_of_not_isFree hfree] at h
    cases h
  | true =>
    rw [writeRecord, Store.locked_of_isFree hfree] at h
    rcases Action.bind_eq_error_iff.mp h with h | ⟨_, _, _, h⟩
    · rcases Action.bind_eq_error_iff.mp h with h | ⟨_, _, _, h⟩
      · rcases Store.enterChange_cause h with h | ⟨_, h⟩ <;> cases h
      · cases h
    · cases h

omit [SlotSource μ] in
/-- Nor is it a cause for which a collection cannot be saved. -/
theorem save_ne_collectionExists (h : save place s = .error e t) (name : String) :
    e ≠ .collectionExists name := by
  rw [save_eq] at h
  split at h
  · cases h
  · next hwrite =>
    obtain ⟨rfl, _⟩ := EStateM.Result.error.inj h
    exact writeRecord_ne_collectionExists hwrite name

/-- Nor is it one for which a collection cannot come into memory. -/
theorem add_ne_collectionExists {refs : UInt32}
    (h : Hosted.add hosting place refs s = .error e t) (name : String) :
    e ≠ .collectionExists name := by
  -- No slot can be had, or the collection that is to leave cannot be written back.
  rcases Hosted.add_fails h with ⟨slots, rfl⟩ | ⟨c, g, g', hwrite⟩
  · intro h
    cases h
  · cases hdirty : c.dirty with
    | false =>
      rw [writeBack_of_clean hdirty] at hwrite
      cases hwrite
    | true =>
      rw [writeBack_of_dirty hdirty] at hwrite
      split at hwrite
      · cases hwrite
      · next hw =>
        obtain ⟨rfl, _⟩ := EStateM.Result.error.inj hwrite
        exact writeRecord_ne_collectionExists hw name

/-- The record of a collection as `create` makes it. -/
def newRecord (id : CollectionId) (name : String) (now : Timestamp) : Record :=
  { id, name, created := now }

/-- Creating a collection, step by step. -/
theorem create_eq (id : CollectionId) (name : String) (now : Timestamp) (s : Catalog μ) :
    create id name now s =
      match isKnown name s with
      | .error e t => .error e t
      | .ok true t => .error (.collectionExists name) t
      | .ok false t =>
        match save t.pool.size (t.allocated (newRecord id name now)) with
        | .error e u => .error e u
        | .ok _ u =>
          match Hosted.add hosting t.pool.size 1 u with
          | .error e v => .error e v
          | .ok _ v => .ok t.pool.size v := by
  rw [create]
  cases hknown : isKnown name s with
  | error e t => exact Action.bind_of_error hknown
  | ok known t =>
    refine (Action.bind_of_ok hknown).trans ?_
    cases known with
    | true => rfl
    | false =>
      rw [if_neg Bool.false_ne_true]
      dsimp only
      rw [allocate_bind]
      -- The record is stored before the cache hears of the collection.
      cases hsave : save t.pool.size (t.allocated (newRecord id name now)) with
      | error e u => exact Action.bind_of_error hsave
      | ok _ u =>
        refine (Action.bind_of_ok hsave).trans ?_
        dsimp only
        cases hadd : Hosted.add hosting t.pool.size 1 u with
        | error e v => exact Action.bind_of_error hadd
        | ok _ v => exact Action.bind_of_ok hadd

omit [SlotSource μ] in
/-- What is saved under a name that no resident has may come in. -/
theorem Saved.waits (hsaved : Saved place t s) (hplace : place < s.pool.size)
    (hname : (s.pool.get place).record.name = (s.pool.get place).name)
    (hback : (s.pool.get place).record.ReadsBack)
    (habsent : ∀ other ∈ s.cache.residents, (s.pool.get other).name ≠ (s.pool.get place).name) :
    Waits t place := by
  have hpool := hsaved.sameUpToUse
  -- It has its name, is read back, is stored and clean, and no resident has its name.
  refine ⟨⟨?_, ?_, fun _ => ?_⟩, hpool.size ▸ hplace, hsaved.dirty hplace, fun other hother => ?_⟩
  · rw [hpool.record, hpool.name, hname]
  · rw [hpool.record]
    exact hback
  · rw [hpool.name, hpool.record, hsaved.stored?, if_pos rfl]
  · rw [hsaved.cache] at hother
    rw [hpool.name, hpool.name]
    exact habsent other hother

omit [SlotSource μ] in
/-- Saving a new collection changes the record of its own name at most, and it may come in. -/
theorem save_new_cases {record : Record} (h : Agrees s) (hplace : place < s.pool.size)
    (hget : s.pool.get place = .ofRecord record) (hback : record.ReadsBack)
    (habsent : ∀ other ∈ s.cache.residents, (s.pool.get other).name ≠ record.name) :
    (∃ t, save place s = .ok () t ∧ Agrees t ∧ Waits t place ∧
      ∀ other, other ≠ record.name → record? t other = record? s other) ∨
    ∃ e t, save place s = .error e t ∧ Kept t s := by
  have hname : (s.pool.get place).name = record.name := by rw [hget, Collection.ofRecord]
  have hrecord : (s.pool.get place).record = record := by rw [hget, Collection.ofRecord]
  rw [← hname] at habsent
  rw [← hrecord] at hback
  have hown : (s.pool.get place).record.name = (s.pool.get place).name := by rw [hrecord, hname]
  -- Where it cannot be written, the store is as it was.
  rcases save_cases hback with ⟨t, hsave, hsaved⟩ | ⟨e, t, hsave, huntouched⟩
  · obtain ⟨ht, hrecords⟩ := hsaved.agrees h hown hback
      fun other hother heq => absurd heq (habsent other hother)
    refine .inl ⟨t, hsave, ht, hsaved.waits hplace hown hback habsent, fun other hother => ?_⟩
    rw [hrecords, hname, if_neg hother]
  · exact .inr ⟨e, t, hsave, h.alike huntouched.alike⟩

/-- Creating a collection changes the record of its own name at most. -/
theorem create_keeps (h : Agrees s) (id : CollectionId) (name : String) (now : Timestamp)
    (hback : (newRecord id name now).ReadsBack) :
    Agrees (Action.stateOf (create id name now s)) ∧
      ∀ other, other ≠ name →
        record? (Action.stateOf (create id name now s)) other = record? s other := by
  have hkeeps : ∀ {t}, Kept t s → Agrees t ∧ ∀ other, other ≠ name →
      record? t other = record? s other :=
    fun hkept => ⟨hkept.agrees, fun other _ => hkept.record? other⟩
  rw [create_eq]
  rcases isKnown_cases name s with ⟨t, hknown, huntouched⟩ | ⟨e, t, hknown, huntouched⟩
  · have ht := h.alike huntouched.alike
    rw [hknown]
    -- A name that has a record is refused, and all is as it was.
    cases hrecord : record? s name with
    | some record => exact hkeeps ht
    | none =>
      rw [Option.isSome_none]
      dsimp only
      -- The new collection is in memory first, and nowhere else.
      have hu := (ht.agrees.alike (alike_allocated t (newRecord id name now))).trans ht
      rcases save_new_cases hu.agrees (lt_size_allocated t _) (get_allocated t _) hback
        (hu.agrees.absent_of_record? ((hu.record? name).trans hrecord)) with
        ⟨v, hsave, hv, hwaits, hothers⟩ | ⟨e, v, hsave, hv⟩
      -- From here on it has a record, whatever the cache does with it.
      · have hkept := add_kept hv hwaits 1
        have hadded : ∀ {w}, Kept w v → Agrees w ∧ ∀ other, other ≠ name →
            record? w other = record? s other :=
          fun hw => ⟨hw.agrees, fun other hother => (hw.record? other).trans
            ((hothers other hother).trans (hu.record? other))⟩
        rw [hsave]
        dsimp only
        cases hadd : Hosted.add hosting t.pool.size 1 v with
        | ok _ w =>
          rw [hadd] at hkept
          exact hadded hkept
        | error e w =>
          rw [hadd] at hkept
          exact hadded hkept
      · rw [hsave]
        exact hkeeps (hv.trans hu)
  · rw [hknown]
    exact hkeeps (h.alike huntouched.alike)

/-- Once it is known whether the name has a record, a collection that exists is the cause of a
failure exactly if there is one. -/
theorem create_eq_exists_iff (id : CollectionId) (name : String) (now : Timestamp)
    {known : Bool} (hknown : isKnown name s = .ok known t) :
    (∃ u, create id name now s = .error (.collectionExists name) u) ↔
      (record? s name).isSome = true := by
  -- What is known is what has a record.
  have hrecord : known = (record? s name).isSome := by
    rcases isKnown_cases name s with ⟨t', hknown', _⟩ | ⟨e, t', hknown', _⟩
    · rw [hknown] at hknown'
      exact (EStateM.Result.ok.inj hknown').1
    · rw [hknown] at hknown'
      cases hknown'
  rw [create_eq, hknown, ← hrecord]
  cases known with
  | true => exact iff_of_true ⟨t, rfl⟩ rfl
  | false =>
    -- Neither saving nor coming into memory fails for that cause.
    refine iff_of_false ?_ Bool.false_ne_true
    rintro ⟨u, hcreate⟩
    dsimp only at hcreate
    split at hcreate
    · next hsave =>
      obtain ⟨rfl, _⟩ := EStateM.Result.error.inj hcreate
      exact save_ne_collectionExists hsave name rfl
    · split at hcreate
      · next hadd =>
        obtain ⟨rfl, _⟩ := EStateM.Result.error.inj hcreate
        exact add_ne_collectionExists hadd name rfl
      · cases hcreate

/-! ## Removing -/

omit [SlotSource μ] in
/-- The removal of the record of a name from the store. -/
def removeStored (name : String) : Action (Catalog μ) Bool :=
  onStore (Store.locked .write (Store.remove .write (Record.key name)))

omit [SlotSource μ] in
/-- If the removal fails, all values stay. -/
theorem removeStored_eq_error (h : removeStored name s = .error e t) : SameValues t s := by
  cases hremove : Store.locked .write (Store.remove .write (Record.key name)) s.host.store with
  | ok found store =>
    rw [removeStored, onStore_of_ok hremove] at h
    cases h
  | error e' store =>
    rw [removeStored, onStore_of_error hremove] at h
    obtain ⟨_, rfl⟩ := EStateM.Result.error.inj h
    refine ⟨rfl, rfl, fun key => ?_⟩
    -- Either the lock was not granted, or the store itself has refused.
    rcases Store.locked_eq_error hremove with ⟨_, rfl⟩ | ⟨_, hremove⟩
    · rfl
    · exact (Store.remove_eq_error hremove).1.value? key

omit [SlotSource μ] in
/-- Removing the record of a name from the store succeeds, or it leaves all as it is. -/
theorem removeStored_cases (name : String) (s : Catalog μ) :
    ∃ t, Action.stateOf (removeStored name s) = t ∧ t.cache = s.cache ∧ t.pool = s.pool ∧
      ((∀ other, t.host.stored? other = s.host.stored? other) ∨
        ∀ other, t.host.stored? other = if other = name then none else s.host.stored? other) := by
  cases h : Store.locked .write (Store.remove .write (Record.key name)) s.host.store with
  | ok found store =>
    rw [removeStored, onStore_of_ok h]
    refine ⟨_, rfl, rfl, rfl, .inr fun other => ?_⟩
    have hvalue := (Store.remove_eq_ok (Store.locked_eq_ok h).2).value? (Record.key other)
    rw [Store.value?_erase] at hvalue
    rw [Ground.stored?, Ground.stored?]
    show (store.value? (Record.key other)).bind _ = _
    rw [hvalue]
    -- Different names have different keys.
    by_cases hname : other = name
    · rw [if_pos hname, if_pos (congrArg Record.key hname.symm), Option.bind_none]
    · rw [if_neg hname, if_neg fun hkey => hname (Record.key_inj hkey).symm]
  | error e store =>
    have hfails : removeStored name s = _ := onStore_of_error h
    have huntouched := (removeStored_eq_error hfails).untouched
    rw [hfails]
    exact ⟨_, rfl, rfl, rfl, .inl huntouched.stored?⟩

omit [SlotSource μ] in
/-- Where no resident has the name, removing its record from the store changes no other record. -/
theorem removeStored_keeps (h : Agrees s)
    (habsent : ∀ place ∈ s.cache.residents, (s.pool.get place).name ≠ name) :
    Agrees (Action.stateOf (removeStored name s)) ∧
      ∀ other, other ≠ name →
        record? (Action.stateOf (removeStored name s)) other = record? s other := by
  -- Failed or not, the call touches nothing but what is stored under the name.
  obtain ⟨t, hstate, hcache, hpool, hstored⟩ := removeStored_cases name s
  rw [hstate]
  have hothers : ∀ other, other ≠ name → t.host.stored? other = s.host.stored? other := by
    intro other hother
    rcases hstored with hstored | hstored
    · exact hstored other
    · rw [hstored, if_neg hother]
  have ht : Agrees t := by
    -- Residents have other names, so what is stored for them is as it was.
    refine ⟨?_, fun place hplace => ?_, fun other record hrecord => ?_⟩
    · rw [hcache, hpool]
      exact h.consistent
    · rw [hcache] at hplace
      have hfaithful := h.faithful place hplace
      refine ⟨?_, ?_, fun hdirty => ?_⟩
      · rw [hpool, hfaithful.name]
      · rw [hpool]
        exact hfaithful.readsBack
      · rw [hpool] at hdirty
        rw [hpool, hothers _ (habsent place hplace), hfaithful.stored? hdirty]
    · rcases hstored with hstored | hstored
      · rw [hstored] at hrecord
        exact h.stored? other record hrecord
      · rw [hstored] at hrecord
        split at hrecord
        · cases hrecord
        · exact h.stored? other record hrecord
  refine ⟨ht, fun other hother => ?_⟩
  rw [record?, record?, hcache, hpool, hothers other hother]

/-- The removal of a collection takes the resident with the name out of its slot first. -/
theorem remove_of_resident (hc : s.cache.Consistent s.pool) {slot : Nat}
    (hslot : s.cache.resident? slot = some place) :
    remove (s.pool.get place).name s =
      removeStored (s.pool.get place).name (s.vacate slot place) := by
  have hfound : s.cache.getByName? (s.pool.get place).name = some place :=
    (hc.getByName?_eq_some_iff _ _).mpr ⟨Cache.mem_residents_iff.mpr ⟨slot, hslot⟩, rfl⟩
  rw [remove, Action.get_bind, hfound]
  exact Action.bind_of_ok (Hosted.remove_of_resident hc hslot)

/-- Where no resident has the name, only the store is asked. -/
theorem remove_of_absent (hname : s.cache.getByName? name = none) :
    remove name s = removeStored name s := by
  rw [remove, Action.get_bind, hname]
  rfl

/-- Removing a collection changes the record of its own name at most. -/
theorem remove_keeps (h : Agrees s) (name : String) :
    Agrees (Action.stateOf (remove name s)) ∧
      ∀ other, other ≠ name → record? (Action.stateOf (remove name s)) other = record? s other := by
  cases hfound : s.cache.getByName? name with
  | none =>
    rw [remove_of_absent hfound]
    exact removeStored_keeps h ((h.consistent.getByName?_eq_none_iff name).mp hfound)
  | some place =>
    obtain ⟨hplace, rfl⟩ := (h.consistent.getByName?_eq_some_iff _ _).mp hfound
    obtain ⟨slot, hslot⟩ := Cache.mem_residents_iff.mp hplace
    rw [remove_of_resident h.consistent hslot]
    -- First it leaves the cache, then its record is removed.
    have hc : (s.vacate slot place).cache.Consistent s.pool := h.consistent.vacated hslot
    have hmem : ∀ {other}, other ∈ (s.vacate slot place).cache.residents ↔
        other ∈ s.cache.residents ∧ other ≠ place := h.consistent.mem_residents_vacate hslot
    have hsubset : ∀ other ∈ (s.vacate slot place).cache.residents, other ∈ s.cache.residents :=
      fun other hother => (hmem.mp hother).1
    have habsent : ∀ other ∈ (s.vacate slot place).cache.residents,
        ((s.vacate slot place).pool.get other).name ≠ (s.pool.get place).name :=
      fun other hother heq => (hmem.mp hother).2 (h.eq_of_name hplace (hmem.mp hother).1 heq)
    obtain ⟨hagrees, hothers⟩ := removeStored_keeps (h.fewer hc rfl rfl hsubset) habsent
    refine ⟨hagrees, fun name hname => (hothers name hname).trans ?_⟩
    -- The resident that has left had another name.
    refine h.record?_fewer hc rfl rfl hsubset fun other hother heq =>
      .inl (hmem.mpr ⟨hother, ?_⟩)
    rintro rfl
    exact hname heq.symm

end Catalog

end XmlIndex
