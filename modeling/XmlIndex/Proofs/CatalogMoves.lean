import XmlIndex.Proofs.CatalogAgreement

/-! # Moves of the catalog's cache

The moves of the cache keep the agreement of memory and store and change the record of no name,
and so does a resize.  The same holds for `add` if the collection that comes in is stored as it
is and no resident has its name (`Catalog.Waits`). -/

namespace XmlIndex

namespace Catalog

open Hosted (Move Moves)

variable {μ : Type} {s t u : Catalog μ} {place other : Pool.Place} {slot : Nat}
  {incoming : Collection}

/-- The collection is in memory as it is stored, and no resident has its name. -/
structure Waits (s : Catalog μ) (place : Pool.Place) : Prop extends Faithful s place where
  known : place < s.pool.size
  clean : (s.pool.get place).dirty = false
  new : ∀ other ∈ s.cache.residents, (s.pool.get other).name ≠ (s.pool.get place).name

variable [SlotSource μ]

/-! ## Single moves -/

/-- A move changes nothing of note, or it saves a resident, which then may leave. -/
theorem move_cases (h : Agrees s) (hmove : Move hosting incoming s t) :
    Alike t s ∨ (∃ place ∈ s.cache.residents, Saved place t s) ∨
      ∃ slot place u, s.cache.resident? slot = some place ∧ Saved place u s ∧
        t = u.vacate slot place := by
  -- Each move in turn; only a release writes anything.
  cases hmove with
  | counted uses replacements =>
    exact .inl ⟨⟨rfl, rfl, rfl⟩, .refl s.pool, fun _ _ => rfl, fun _ _ => rfl, fun _ => rfl⟩
  | asked size =>
    exact .inl ⟨⟨rfl, rfl, rfl⟩, .refl s.pool, fun _ _ => rfl, fun _ _ => rfl, fun _ => rfl⟩
  | used place refs timestamp =>
    have hpool : (s.withUse place refs timestamp).pool.SameUpToUse s.pool :=
      s.pool.sameUpToUse_modify place fun c => ⟨_, _, _, rfl⟩
    refine .inl ⟨⟨rfl, rfl, rfl⟩, hpool.toExtends, fun other _ => hpool.record other,
      fun other _ => ?_, fun _ => rfl⟩
    -- A use changes counts only, so what is dirty stays dirty.
    show ((s.pool.modify place _).get other).dirty = _
    rw [Pool.get_modify]
    split <;> rfl
  | @released place hplace =>
    have hfaithful := h.faithful place hplace
    rcases release_cases hfaithful.readsBack hfaithful.stored? with
      ⟨t, hrelease, hsaved⟩ | ⟨e, t, hrelease, huntouched⟩
    · rw [hrelease]
      exact .inr (.inl ⟨place, hplace, hsaved⟩)
    · rw [hrelease]
      exact .inl huntouched.alike
  | @left t slot place hslot _ hready =>
    have hfaithful := h.faithful place (Cache.mem_residents hslot)
    rcases release_cases hfaithful.readsBack hfaithful.stored? with
      ⟨u, hrelease, hsaved⟩ | ⟨e, u, hrelease, _⟩
    · rw [hready] at hrelease
      obtain ⟨_, rfl⟩ := EStateM.Result.ok.inj hrelease
      exact .inr (.inr ⟨slot, place, t, hslot, hsaved, rfl⟩)
    -- Who leaves has been released without a failure.
    · rw [hready] at hrelease
      cases hrelease

/-- A move changes the record of no name. -/
theorem move_kept (h : Agrees s) (hmove : Move hosting incoming s t) : Kept t s := by
  -- A move counts or asks, or writes a resident, or takes out one that was written.
  rcases move_cases h hmove with halike | ⟨place, hplace, hsaved⟩ | ⟨slot, place, u, hslot,
    hsaved, rfl⟩
  · exact h.alike halike
  · exact hsaved.kept h hplace
  · have hplace := Cache.mem_residents hslot
    have hkept := hsaved.kept h hplace
    rw [← hsaved.cache] at hslot
    exact (hkept.agrees.vacate hslot (hsaved.dirty (h.lt_size hplace))).trans hkept

/-- A clean collection stays clean. -/
theorem move_clean (h : Agrees s) (hmove : Move hosting incoming s t)
    (hplace : place < s.pool.size) (hclean : (s.pool.get place).dirty = false) :
    (t.pool.get place).dirty = false := by
  rcases move_cases h hmove with halike | ⟨other, _, hsaved⟩ | ⟨slot, other, u, _, hsaved, rfl⟩
  · rw [halike.dirty place hplace, hclean]
  · exact hsaved.clean hclean
  · exact hsaved.clean hclean

omit [SlotSource μ] in
/-- What waits to come in is not affected by saving a resident. -/
theorem Waits.saved (hw : Waits s place) (hsaved : Saved other t s)
    (hother : other ∈ s.cache.residents) : Waits t place := by
  have hpool := hsaved.sameUpToUse
  refine ⟨⟨?_, ?_, fun _ => ?_⟩, hpool.size ▸ hw.known, hsaved.clean hw.clean, ?_⟩
  · rw [hpool.record, hpool.name, hw.name]
  · rw [hpool.record]
    exact hw.readsBack
  -- A resident has another name, so its record is stored under another key.
  · rw [hpool.name, hpool.record, hsaved.stored?, if_neg fun heq => hw.new other hother heq.symm,
      hw.stored? hw.clean]
  · intro other' hother'
    rw [hsaved.cache] at hother'
    rw [hpool.name, hpool.name]
    exact hw.new other' hother'

/-- What waits to come in waits after a move. -/
theorem move_waits (h : Agrees s) (hmove : Move hosting incoming s t) (hw : Waits s place) :
    Waits t place := by
  -- Nothing of note has changed, or a resident was saved, or it was saved and has left.
  rcases move_cases h hmove with halike | ⟨other, hother, hsaved⟩ | ⟨slot, other, u, hslot,
    hsaved, rfl⟩
  · refine ⟨hw.toFaithful.alike hw.known halike, Nat.lt_of_lt_of_le hw.known halike.pool.size_le,
      ?_, fun other hother => ?_⟩
    · rw [halike.dirty place hw.known, hw.clean]
    · rw [halike.mem_residents_iff] at hother
      rw [halike.pool.name other (h.lt_size hother), halike.pool.name place hw.known]
      exact hw.new other hother
  · exact hw.saved hsaved hother
  · have hw' := hw.saved hsaved (Cache.mem_residents hslot)
    refine ⟨⟨hw'.name, hw'.readsBack, hw'.stored?⟩, hw'.known, hw'.clean, fun other hother => ?_⟩
    obtain ⟨slot', hslot'⟩ := Cache.mem_residents_iff.mp hother
    exact hw'.new other (Cache.mem_residents (Cache.resident?_vacate_eq_some_iff.mp hslot').2)

/-! ## Many moves -/

/-- Moves change the record of no name. -/
theorem moves_kept (h : Agrees s) (hmoves : Moves hosting incoming s t) : Kept t s :=
  hmoves.keep (I := fun t => Kept t s)
    (fun {_ _} hkept hmove => (move_kept hkept.agrees hmove).trans hkept) h.kept

/-- What is clean stays so through moves. -/
theorem moves_clean (h : Agrees s) (hmoves : Moves hosting incoming s t)
    (hplace : place < s.pool.size) (hclean : (s.pool.get place).dirty = false) :
    (t.pool.get place).dirty = false := by
  -- Along the moves the catalog has to agree with its store, since that is what decides the next
  -- one.
  have hboth : Agrees t ∧ place < t.pool.size ∧ (t.pool.get place).dirty = false :=
    hmoves.keep (I := fun t => Agrees t ∧ place < t.pool.size ∧ (t.pool.get place).dirty = false)
      (fun {_ _} hu hmove => ⟨(move_kept hu.1 hmove).agrees,
        hmove.sameUpToUse.size ▸ hu.2.1, move_clean hu.1 hmove hu.2.1 hu.2.2⟩)
      ⟨h, hplace, hclean⟩
  exact hboth.2.2

/-- What waits to come in waits after any moves. -/
theorem moves_waits (h : Agrees s) (hmoves : Moves hosting incoming s t) (hw : Waits s place) :
    Waits t place := by
  have hboth : Agrees t ∧ Waits t place :=
    hmoves.keep (I := fun t => Agrees t ∧ Waits t place)
      (fun {_ _} hu hmove => ⟨(move_kept hu.1 hmove).agrees, move_waits hu.1 hmove hu.2⟩) ⟨h, hw⟩
  exact hboth.2

/-! ## Resizing -/

/-- What was released is clean. -/
theorem releaseAll_clean {places : List Pool.Place} (h : Agrees s)
    (hplaces : ∀ place ∈ places, place ∈ s.cache.residents)
    (hr : Hosted.releaseAll hosting places s = .ok () t) :
    ∀ place ∈ places, (t.pool.get place).dirty = false := by
  -- Induction on those that are released; what is clean stays so while the others are.
  induction places generalizing s with
  | nil => simp
  | cons place places ih =>
    obtain ⟨hplace, hplaces⟩ := List.forall_mem_cons.mp hplaces
    have hfaithful := h.faithful place hplace
    rw [Hosted.releaseAll_cons] at hr
    rcases release_cases hfaithful.readsBack hfaithful.stored? with
      ⟨u, hrelease, hsaved⟩ | ⟨e, u, hrelease, _⟩
    · simp only [hrelease] at hr
      have hu := (hsaved.kept h hplace).agrees
      have hplaces' : ∀ other ∈ places, other ∈ u.cache.residents := by
        rw [hsaved.cache]
        exact hplaces
      have hmoves := Hosted.releaseAll_moves hosting default hplaces'
      rw [hr] at hmoves
      refine List.forall_mem_cons.mpr ⟨?_, ih hu hplaces' hr⟩
      -- The first one is clean now, and releasing the others does not change that.
      refine moves_clean hu hmoves ?_ (hsaved.dirty (h.lt_size hplace))
      rw [hsaved.sameUpToUse.size]
      exact h.lt_size hplace
    · simp only [hrelease] at hr
      cases hr

/-- A resize changes the record of no name, since what it cuts off was released. -/
theorem resize_kept (h : Agrees s) (size : Nat) :
    Kept (Action.stateOf (Hosted.resize hosting size s)) s := by
  have hdropped : ∀ place ∈ s.cache.residents.drop size, place ∈ s.cache.residents :=
    fun _ => List.mem_of_mem_drop
  have hmoves := Hosted.releaseAll_moves hosting default hdropped
  -- A release fails and nobody leaves, or all that leave are clean.
  rcases Hosted.resize_cases hosting size s with ⟨e, t, hr, hresize, _⟩ | ⟨t, hr, hresize, hcache⟩
  · rw [hr] at hmoves
    rw [hresize]
    exact moves_kept h hmoves
  · have hclean := releaseAll_clean h hdropped hr
    rw [hr] at hmoves
    rw [hresize]
    have hkept : Kept t s := moves_kept h hmoves
    rw [← hcache] at hclean
    have hresidents := Cache.residents_rebuild t.cache t.pool size (t.cache.residents.take size)
    have hsubset : ∀ place ∈ (t.cache.rebuild t.pool size (t.cache.residents.take size)).residents,
        place ∈ t.cache.residents := by
      rw [hresidents]
      exact fun _ => List.mem_of_mem_take
    -- Who is not among the first residents has been written back.
    have hleft : ∀ place ∈ t.cache.residents,
        place ∈ (t.cache.rebuild t.pool size (t.cache.residents.take size)).residents ∨
          (t.pool.get place).dirty = false := by
      intro place hplace
      rw [hresidents]
      rw [← List.take_append_drop size t.cache.residents] at hplace
      exact (List.mem_append.mp hplace).imp_right (hclean place)
    have hc := hkept.agrees.consistent.rebuilt size
    have hrebuilt : Kept (t.withCache fun c => c.rebuild t.pool size (c.residents.take size)) t :=
      hkept.agrees.kept_fewer hc rfl rfl hsubset hleft
    exact hrebuilt.trans hkept

/-- Growing changes the record of no name. -/
theorem grow_kept (h : Agrees s) : Kept (Action.stateOf (Hosted.grow hosting s)) s := by
  rcases Hosted.grow_cases hosting default s with hmoves | ⟨size, t, hmoves, _, hgrow⟩
  · exact moves_kept h hmoves
  · have hkept := moves_kept h hmoves
    rw [hgrow]
    exact (resize_kept hkept.agrees size).trans hkept

/-! ## Adding -/

omit [SlotSource μ] in
/-- The residents are those there were and the one that came in. -/
theorem mem_residents_bring (room : s.HasRoomFor slot place) :
    other ∈ (s.bring slot place).cache.residents ↔ other = place ∨ other ∈ s.cache.residents :=
  Cache.mem_residents_place room.slot_lt room.free

omit [SlotSource μ] in
/-- What comes in is the record that its name had before. -/
theorem Waits.bring (h : Agrees s) (hw : Waits s place) (room : s.HasRoomFor slot place) :
    Kept (s.bring slot place) s := by
  have ht : Agrees (s.bring slot place) := by
    refine ⟨room.consistent_bring h.consistent hw.known, fun other hother => ?_, h.stored?⟩
    rcases (mem_residents_bring room).mp hother with rfl | hother
    -- What waits has its record stored already.
    · exact ⟨hw.name, hw.readsBack, hw.stored?⟩
    · have hfaithful := h.faithful other hother
      exact ⟨hfaithful.name, hfaithful.readsBack, hfaithful.stored?⟩
  refine ⟨ht, fun name => ?_⟩
  -- Its own name has the record that is stored, and the others are not affected.
  by_cases hname : (s.pool.get place).name = name
  · subst hname
    rw [h.record?_of_absent hw.new, hw.stored? hw.clean]
    exact ht.record?_of_resident ((mem_residents_bring room).mpr (.inl rfl))
  · rcases h.record?_cases name with ⟨other, hother, rfl, hrecord⟩ | ⟨habsent, hrecord⟩
    · rw [hrecord]
      exact ht.record?_of_resident ((mem_residents_bring room).mpr (.inr hother))
    · rw [hrecord]
      refine ht.record?_of_absent fun other hother => ?_
      rcases (mem_residents_bring room).mp hother with rfl | hother
      · exact hname
      · exact habsent other hother

/-- Adding what waits changes the record of no name. -/
theorem add_kept (h : Agrees s) (hw : Waits s place) (refs : UInt32) :
    Kept (Action.stateOf (Hosted.add hosting place refs s)) s := by
  have hadded := Hosted.add_added hosting h.consistent place refs
  generalize Action.stateOf (Hosted.add hosting place refs s) = u at hadded
  have hbring : ∀ {t slot}, Moves hosting (s.pool.get place) s t → t.HasRoomFor slot place →
      Kept (t.bring slot place) s := by
    intro t slot hmoves hroom
    have hkept := moves_kept h hmoves
    exact ((moves_waits h hmoves hw).bring hkept.agrees hroom).trans hkept
  -- It stopped on the way, or the collection is in, with or without somebody leaving for it.
  cases hadded with
  | stopped hmoves => exact moves_kept h hmoves
  | placed hmoves hroom => exact hbring hmoves hroom
  | @replaced t slot _ hmoves hroom uses replacements =>
    have hkept := hbring hmoves hroom
    have hcount : Move hosting default (t.bring slot place) _ := .counted _ uses replacements
    have hcounted := move_kept hkept.agrees hcount
    exact ((grow_kept hcounted.agrees).trans hcounted).trans hkept

end Catalog

end XmlIndex
