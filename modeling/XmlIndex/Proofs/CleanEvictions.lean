import XmlIndex.Proofs.CacheAdmission
import XmlIndex.Proofs.RecordedHooks

/-! # Clean evictions

A resident leaves when a collection comes in for which there is no room, when its name comes in
under another key, or when the cache is resized.  In each case it is released first, and a
release can fail.  An operation that fails leaves all residents where they are, and one that
answers has released exactly those that are gone (`Hosted.EndsCleanly`).

That `add` never fails halfway has two reasons.  Once the bearer of a name has left, its slot is
free, and nobody else has to leave.  And where slots are asked for at a budget, none are taken
away, so growing after a replacement releases nobody and cannot fail (`Hosted.exists_grow`). -/

namespace XmlIndex

/-- A record takes no slots away. -/
theorem Cache.Host.NeverShrinks.recorded {σ : Type} {host : Cache.Host σ}
    (h : host.NeverShrinks) : host.recorded.NeverShrinks :=
  fun current s => h current s.1

namespace Cache

variable {c c' c'' : Cache} {pool : Pool} {slot slot' : Nat} {place other : Pool.Place}

/-! ## Who is gone -/

/-- The residents that are none in another cache, in the order of their slots. -/
def departed (c c' : Cache) : List Pool.Place :=
  c.residents.filter fun place => place ∉ c'.residents

/-- Who is gone depends on the residents only. -/
theorem departed_congr (h : c'.residents = c''.residents) : c.departed c' = c.departed c'' := by
  rw [departed, departed, h]

/-- If all residents are still there, nobody is gone. -/
theorem departed_eq_nil (h : ∀ place ∈ c.residents, place ∈ c'.residents) :
    c.departed c' = [] :=
  List.filter_eq_nil_iff.mpr fun place hplace => by simpa using h place hplace

/-- If all but one are still there, that one is gone. -/
theorem departed_eq_singleton (hnodup : c.residents.Nodup) (hother : other ∈ c.residents)
    (h : ∀ place ∈ c.residents, place ∈ c'.residents ↔ place ≠ other) :
    c.departed c' = [other] := calc
  c.departed c' = c.residents.filter fun place => decide (place = other) := by
    refine List.filter_congr fun place hplace => decide_eq_decide.mpr ?_
    rw [h place hplace, not_ne_iff]
  _ = [other] := by
    rw [List.filter_eq, List.count_eq_one_of_mem hnodup hother, List.replicate_one]

/-- Of a cache with the first residents the others are gone. -/
theorem departed_of_take (hnodup : c.residents.Nodup) {size : Nat}
    (h : c'.residents = c.residents.take size) : c.departed c' = c.residents.drop size := by
  -- No resident is in two slots, so none of the first is among the others.
  have hapart : ∀ place ∈ c.residents.take size, place ∉ c.residents.drop size := by
    rw [← List.take_append_drop size c.residents] at hnodup
    exact fun place hfirst hlast => List.disjoint_of_nodup_append hnodup hfirst hlast
  have hfirst : (c.residents.take size).filter (fun place => place ∉ c'.residents) = [] :=
    List.filter_eq_nil_iff.mpr fun place hplace => by simpa [h] using hplace
  have hlast : (c.residents.drop size).filter (fun place => place ∉ c'.residents) =
      c.residents.drop size := by
    refine List.filter_eq_self.mpr fun place hplace => decide_eq_true ?_
    rw [h]
    exact fun hfirst => hapart place hfirst hplace
  calc c.departed c'
    _ = (c.residents.take size ++ c.residents.drop size).filter
          (fun place => place ∉ c'.residents) := by
        rw [List.take_append_drop, departed]
    _ = c.residents.drop size := by
        rw [List.filter_append, hfirst, hlast, List.nil_append]

/-- When one has left and another one has come in, the first one is gone. -/
theorem Consistent.departed_place_vacate (h : c.Consistent pool)
    (hslot : c.resident? slot = some other) (habsent : place ∉ c.residents)
    (hslot' : slot' < (c.vacate slot (pool.get other)).capacity)
    (hfree : (c.vacate slot (pool.get other)).resident? slot' = none) (collection : Collection) :
    c.departed ((c.vacate slot (pool.get other)).place slot' place collection) = [other] := by
  refine departed_eq_singleton h.nodup_residents (mem_residents hslot) fun place' hplace' => ?_
  rw [mem_residents_place hslot' hfree, h.mem_residents_vacate hslot]
  -- Of the former residents only the one of the emptied slot is missing.
  constructor
  · rintro (rfl | ⟨_, hne⟩)
    · exact absurd hplace' habsent
    · exact hne
  · exact fun hne => .inr ⟨hplace', hne⟩

end Cache

namespace Hosted

open XmlIndex.Action Cache

variable {σ : Type} {host : Cache.Host σ} {s t : Hosted (σ × List HookCall)} {slot : Nat}
  {place other : Pool.Place}

/-! ## Clean ends -/

/-- What is relied on when an operation that started in `s` comes to its end.  After a failure
only the count of uses may be another one, and the residents are what they were, but for those
that are clean now.  After an answer all residents that are gone have been released, in order,
and nobody else. -/
inductive EndsCleanly {α : Type} (s : Hosted (σ × List HookCall)) :
    EStateM.Result Error (Hosted (σ × List HookCall)) α → Prop
  | failed {e : Error} {t : Hosted (σ × List HookCall)}
    (cache : t.cache = { s.cache with uses := t.cache.uses })
    (residents : ∀ place ∈ s.cache.residents, t.pool.get place = s.pool.get place ∨
      t.pool.get place = (s.pool.get place).markClean) :
    EndsCleanly s (.error e t)
  | answered {a : α} {t : Hosted (σ × List HookCall)}
    (calls : t.calls = s.calls ++ (s.cache.departed t.cache).flatMap fun place =>
      HookCall.ofRelease (s.pool.get place)) :
    EndsCleanly s (.ok a t)

/-- Who may be gone when `add` has answered: the collection that is the answer; and without one,
nobody or the bearer of the name under another key. -/
inductive MadeWay (pool : Pool) (place : Pool.Place) :
    Option Pool.Place → List Pool.Place → Prop
  | nobody : MadeWay pool place none []
  | namesake {other : Pool.Place} (name : (pool.get other).name = (pool.get place).name)
    (key : (pool.get other).key ≠ (pool.get place).key) : MadeWay pool place none [other]
  | victim {other : Pool.Place} : MadeWay pool place (some other) [other]

/-! ## Resizing -/

/-- Releases mark residents clean at most. -/
theorem releaseAll_get {τ : Type} (host : Cache.Host τ) (places : List Pool.Place)
    (s : Hosted τ) (other : Pool.Place) :
    (stateOf (releaseAll host places s)).pool.get other = s.pool.get other ∨
      (stateOf (releaseAll host places s)).pool.get other = (s.pool.get other).markClean := by
  -- Induction on those that are released; each release marks one clean at most.
  induction places generalizing s with
  | nil => exact .inl rfl
  | cons place places ih =>
    rw [releaseAll_cons]
    cases hr : release host place s with
    | error e t => exact release_get hr other
    | ok _ t =>
      have hfirst : t.pool.get other = s.pool.get other ∨
          t.pool.get other = (s.pool.get other).markClean := release_get hr other
      rcases hfirst with hfirst | hfirst
      · rw [← hfirst]
        exact ih t
      · -- What is marked clean twice is marked clean.
        have hclean : (t.pool.get other).markClean = (s.pool.get other).markClean := by
          rw [hfirst]
          rfl
        rcases ih t with hrest | hrest
        · exact .inr (hrest.trans hfirst)
        · exact .inr (hrest.trans hclean)

/-- A resize releases those for whom there is no slot, or it changes no slot. -/
theorem resize_endsCleanly (hc : s.cache.Consistent s.pool) (size : Nat) :
    EndsCleanly s (resize host.recorded size s) := by
  -- A release fails, and nobody leaves; or all are released, and the slots are taken away.
  rcases resize_cases host.recorded size s with
    ⟨e, t, hr, hresize, hcache⟩ | ⟨t, hr, hresize, hcache⟩
  · rw [hresize]
    refine .failed (by rw [hcache]) fun place _ => ?_
    have hget := releaseAll_get host.recorded (s.cache.residents.drop size) s place
    rwa [hr] at hget
  · rw [hresize]
    have hgone : s.cache.departed (t.cache.rebuild t.pool size (t.cache.residents.take size)) =
        s.cache.residents.drop size := by
      refine departed_of_take hc.nodup_residents ?_
      rw [residents_rebuild, hcache]
    refine .answered ?_
    show t.calls = s.calls ++ (s.cache.departed (t.cache.rebuild t.pool size
      (t.cache.residents.take size))).flatMap _
    rw [hgone]
    exact releaseAll_calls (hc.nodup_residents.sublist (List.drop_sublist _ _)) hr

/-! ## Leaving -/

/-- One resident has left its slot, and its release is on record. -/
structure Left (s t : Hosted (σ × List HookCall)) (slot : Nat) (other : Pool.Place) : Prop where
  resident : s.cache.resident? slot = some other
  cache : t.cache = s.cache.vacate slot (t.pool.get other)
  pool : t.pool.Extends s.pool
  calls : t.calls = s.calls ++ HookCall.ofRelease (s.pool.get other)

namespace Left

/-- Whoever left after another collection was used, left. -/
theorem of_withUse {refs : UInt32} {time : Nat} (hne : other ≠ place)
    (h : Left (s.withUse place refs time) t slot other) : Left s t slot other where
  resident := h.resident
  cache := h.cache
  pool := by
    have hused : (s.withUse place refs time).pool.SameUpToUse s.pool :=
      s.pool.sameUpToUse_modify place fun _ => ⟨_, _, _, rfl⟩
    exact h.pool.trans hused.toExtends
  calls := by
    rw [h.calls, get_withUse_of_ne s hne]
    rfl

/-- The slot is one of the cache. -/
theorem slot_lt (h : Left s t slot other) : slot < t.cache.capacity := by
  rw [h.cache, capacity_vacate]
  exact lt_capacity h.resident

/-- It is free now. -/
theorem free (h : Left s t slot other) : t.cache.resident? slot = none := by
  rw [h.cache, resident?_vacate_self]

/-- So a free slot is found. -/
theorem exists_freeSlot (h : Left s t slot other) : ∃ slot', t.cache.freeSlot? = some slot' := by
  refine Option.ne_none_iff_exists'.mp fun hfull => ?_
  obtain ⟨place, hplace⟩ := freeSlot?_eq_none_iff.mp hfull slot h.slot_lt
  rw [h.free] at hplace
  cases hplace

/-- After a collection has come in as well, one resident is gone. -/
theorem departed_place (h : Left s t slot other) (hc : s.cache.Consistent s.pool)
    (habsent : place ∉ s.cache.residents) {slot' : Nat} (hslot' : slot' < t.cache.capacity)
    (hfree : t.cache.resident? slot' = none) (collection : Collection) :
    s.cache.departed (t.cache.place slot' place collection) = [other] := by
  rw [h.cache] at hslot' hfree ⊢
  exact (hc.of_extends h.pool).departed_place_vacate h.resident habsent hslot' hfree collection

end Left

/-- A resident leaves, or its release fails and nothing has changed. -/
theorem evict_cases (host : Cache.Host σ) (hslot : s.cache.resident? slot = some other) :
    (∃ e t, evict host.recorded slot s = .error e t ∧ t.cache = s.cache ∧ t.pool = s.pool) ∨
    ∃ t, evict host.recorded slot s = .ok (some other) t ∧ Left s t slot other := by
  rw [evict_eq, hslot]
  dsimp only
  -- The slot is cleared only once the resident is released.
  cases hr : release host.recorded other s with
  | error e t =>
    obtain ⟨hcache, hpool, _⟩ := release_eq_error hr
    exact .inl ⟨e, t, rfl, hcache, hpool⟩
  | ok _ t =>
    have hcache : t.cache = s.cache := release_cache hr
    have hcalls := release_calls hr
    exact .inr ⟨_, rfl, hslot, congrArg (Cache.vacate · slot (t.pool.get other)) hcache,
      (release_sameUpToUse hr).toExtends, hcalls⟩

/-- The name is free, or its bearer cannot be released, or it has left. -/
theorem evictName_cases (host : Cache.Host σ) (hc : s.cache.Consistent s.pool) (name : String) :
    evictName host.recorded name s = .ok () s ∨
    (∃ e t, evictName host.recorded name s = .error e t ∧ t.cache = s.cache ∧ t.pool = s.pool) ∨
    ∃ slot other t, evictName host.recorded name s = .ok () t ∧
      (s.pool.get other).name = name ∧ Left s t slot other := by
  rw [evictName_eq]
  cases hlookup : (s.cache.names.get? name).bind s.cache.keys.get? with
  | none => exact .inl rfl
  | some slot =>
    -- The maps are in step with the slots, so the slot found has the bearer of the name.
    obtain ⟨other, hslot, hname⟩ := (hc.slot_of_name_iff name slot).mp hlookup
    rcases evict_cases host hslot with ⟨e, t, hevict, hkept⟩ | ⟨t, hevict, hleft⟩
    · exact .inr (.inl ⟨e, t, by simp only [hevict], hkept⟩)
    · exact .inr (.inr ⟨slot, other, t, by simp only [hevict], hname, hleft⟩)

/-- There is a free slot, or nobody can leave, or a victim has left. -/
theorem makeRoom_cases (host : Cache.Host σ) (s : Hosted (σ × List HookCall)) :
    (∃ slot, makeRoom host.recorded s = .ok (slot, none) s ∧ s.cache.freeSlot? = some slot) ∨
    (∃ e t, makeRoom host.recorded s = .error e t ∧ t.cache = s.cache ∧ t.pool = s.pool) ∨
    ∃ slot other t, makeRoom host.recorded s = .ok (slot, some other) t ∧
      Left s t slot other := by
  rw [makeRoom_eq]
  cases s.cache.freeSlot? with
  -- With a free slot nobody is asked to leave.
  | some slot => exact .inl ⟨slot, rfl, rfl⟩
  | none =>
    cases hvictim : s.cache.victim? s.pool with
    | none => exact .inr (.inl ⟨_, s, rfl, rfl, rfl⟩)
    | some slot =>
      obtain ⟨other, hslot, _⟩ := victim?_eq_some hvictim
      rcases evict_cases host hslot with ⟨e, t, hevict, hkept⟩ | ⟨t, hevict, hleft⟩
      · exact .inr (.inl ⟨e, t, by simp only [hevict], hkept⟩)
      · exact .inr (.inr ⟨slot, other, t, by simp only [hevict], hleft⟩)

/-! ## Adding -/

/-- What an answer of `add` comes to: all who are gone have made way for the collection, and their
releases are on record. -/
structure Admits (s t : Hosted (σ × List HookCall)) (place : Pool.Place)
    (evicted? : Option Pool.Place) : Prop where
  way : MadeWay s.pool place evicted? (s.cache.departed t.cache)
  calls : t.calls = s.calls ++ (s.cache.departed t.cache).flatMap fun place =>
    HookCall.ofRelease (s.pool.get place)

/-- Nobody has to make way if there is nobody in the slots who is gone. -/
theorem admits_of_kept (h : ∀ other ∈ s.cache.residents, other ∈ t.cache.residents)
    (hcalls : t.calls = s.calls) : Admits s t place none := by
  have hgone := departed_eq_nil h
  constructor
  · rw [hgone]
    exact .nobody
  · rw [hgone, hcalls, List.flatMap_nil, List.append_nil]

/-- Whoever has left is the one who made way, whatever is counted then and however many slots are
asked for. -/
theorem Left.admits {u v : Hosted (σ × List HookCall)} {evicted? : Option Pool.Place}
    {slot' : Nat} (h : Left s t slot other) (hc : s.cache.Consistent s.pool)
    (habsent : place ∉ s.cache.residents) (hcache : u.cache = t.cache)
    (hslot' : slot' < t.cache.capacity) (hfree : t.cache.resident? slot' = none)
    (hresidents : v.cache.residents = (u.bring slot' place).cache.residents)
    (hcalls : v.calls = t.calls) (hway : MadeWay s.pool place evicted? [other]) :
    Admits s v place evicted? := by
  -- The newcomer was not there before, so it does not count among the departed.
  have hgone : s.cache.departed v.cache = [other] := by
    rw [departed_congr hresidents, bring, withCache, hcache]
    exact h.departed_place hc habsent hslot' hfree (u.pool.get place)
  constructor
  · rwa [hgone]
  · rw [hgone, hcalls, h.calls, List.flatMap_singleton]

/-- If inserting a collection fails, cache and residents are left alone; if it answers, those who
have made way for it are on record. -/
theorem insert_cases (hgrants : host.NeverShrinks) (hc : s.cache.Consistent s.pool)
    (hkey : s.cache.get? (s.pool.get place).key = none) (refs : UInt32) :
    (∃ e t, insert host.recorded place refs s = .error e t ∧ t.cache = s.cache ∧
      ∀ other ∈ s.cache.residents, t.pool.get other = s.pool.get other) ∨
    ∃ evicted? t, insert host.recorded place refs s = .ok evicted? t ∧
      Admits s t place evicted? := by
  have hkeys := (hc.get?_eq_none_iff _).mp hkey
  have hne : ∀ other ∈ s.cache.residents, other ≠ place := by
    rintro other hother rfl
    exact hkeys other hother rfl
  have habsent : place ∉ s.cache.residents := fun hplace => hne place hplace rfl
  rw [insert_eq]
  rcases evictName_cases host hc (s.pool.get place).name with
    hname | ⟨e, t, hname, hcache, hpool⟩ | ⟨slot, other, t, hname, hbearer, hleft⟩
  · -- The name is free, so a victim is the only one who may have to leave.
    simp only [hname]
    rcases makeRoom_cases host (s.withUse place refs s.cache.uses) with
      ⟨slot, hroom, hfree⟩ | ⟨e, t, hroom, hcache, hpool⟩ | ⟨slot, other, t, hroom, hleft⟩
    · simp only [hroom]
      obtain ⟨hslot, hfree⟩ := freeSlot?_eq_some hfree
      exact .inr ⟨none, _, rfl, admits_of_kept
        (fun other hother => (mem_residents_place hslot hfree).mpr (.inr hother)) rfl⟩
    · simp only [hroom]
      refine .inl ⟨e, t, rfl, hcache, fun other hother => ?_⟩
      rw [hpool, get_withUse_of_ne s (hne other hother)]
    -- The victim has left, and growing afterwards takes nobody else out.
    · have hleft := hleft.of_withUse (hne other (mem_residents hleft.resident))
      obtain ⟨u, hgrow, hresidents, hhost⟩ := exists_grow hgrants.recorded
        ((t.bring slot place).withCounts t.cache.uses (t.cache.replacements + 1))
      have hcalls : u.calls = t.calls := by
        rcases hhost with hhost | hhost
        · exact congrArg (·.2) hhost
        · exact congrArg (·.2) hhost
      simp only [hroom, hgrow]
      exact .inr ⟨some other, u, rfl, hleft.admits hc habsent rfl hleft.slot_lt hleft.free
        hresidents hcalls .victim⟩
  -- The bearer of the name cannot be released, and nothing has changed.
  · simp only [hname]
    exact .inl ⟨e, t, rfl, hcache, fun other _ => by rw [hpool]⟩
  · -- The bearer of the name has left a free slot behind, so nobody else has to leave.
    obtain ⟨slot', hfree⟩ := hleft.exists_freeSlot
    have hroom : makeRoom host.recorded (t.withUse place refs t.cache.uses) =
        .ok (slot', none) (t.withUse place refs t.cache.uses) := by
      have hfree : (t.withUse place refs t.cache.uses).cache.freeSlot? = some slot' := hfree
      rw [makeRoom_eq, hfree]
    obtain ⟨hslot', hfree⟩ := freeSlot?_eq_some hfree
    simp only [hname, hroom]
    exact .inr ⟨none, _, rfl, hleft.admits hc habsent rfl hslot' hfree rfl rfl
      (.namesake hbearer (hkeys other (mem_residents hleft.resident)))⟩

/-- Adding a collection counts a use on top of that. -/
theorem add_cases (hgrants : host.NeverShrinks) (hc : s.cache.Consistent s.pool)
    (place : Pool.Place) (refs : UInt32) :
    (∃ e t, add host.recorded place refs s = .error e t ∧
      t.cache = { s.cache with uses := t.cache.uses } ∧
      ∀ other ∈ s.cache.residents, t.pool.get other = s.pool.get other) ∨
    ∃ evicted? t, add host.recorded place refs s = .ok evicted? t ∧
      Admits s t place evicted? := by
  rw [add_eq]
  dsimp only
  -- A resident is only counted, and nobody leaves.
  cases hkey : s.cache.get? (s.pool.get place).key with
  | some resident => exact .inr ⟨none, _, rfl, admits_of_kept (fun _ hother => hother) rfl⟩
  | none =>
    have hcounted : (s.withCounts (s.cache.uses + 1) s.cache.replacements).cache.Consistent
        (s.withCounts (s.cache.uses + 1) s.cache.replacements).pool :=
      hc.congr rfl rfl rfl (.refl _)
    rcases insert_cases hgrants hcounted hkey refs with
      ⟨e, t, hinsert, hcache, hpool⟩ | ⟨evicted?, t, hinsert, hadmits⟩
    · exact .inl ⟨e, t, hinsert, by rw [hcache]; rfl, hpool⟩
    · exact .inr ⟨evicted?, t, hinsert, hadmits.way, hadmits.calls⟩

/-- Adding a collection comes to a clean end, and at most one has left. -/
theorem add_endsCleanly (hgrants : host.NeverShrinks) (hc : s.cache.Consistent s.pool)
    (place : Pool.Place) (refs : UInt32) :
    EndsCleanly s (add host.recorded place refs s) ∧
      ∀ evicted? t, add host.recorded place refs s = .ok evicted? t →
        MadeWay s.pool place evicted? (s.cache.departed t.cache) := by
  -- A failure has everyone stay, and an answer has the departed on record.
  rcases add_cases hgrants hc place refs with
    ⟨e, t, hadd, hcache, hpool⟩ | ⟨evicted?, t, hadd, hadmits⟩
  · rw [hadd]
    refine ⟨.failed hcache fun other hother => .inl (hpool other hother), ?_⟩
    rintro _ _ ⟨⟩
  · rw [hadd]
    refine ⟨.answered hadmits.calls, ?_⟩
    rintro _ _ ⟨⟩
    exact hadmits.way

/-- In every state that a run comes to, whatever its hooks do and whichever of them fail, with a
budget or without one: `add` and `resize` do the same on record, a failure changes no slot and no
resident, and an answer has everyone on record who is gone.  When `add` answers, that is nobody or
one. -/
theorem Run.ends_cleanly {s : Hosted σ} {cacheName : String} (hbudget : host.AsksBudget cacheName)
    {size threshold : Nat} (h : Run host size threshold s) :
    (∀ place refs,
      add host place refs s = mapState unrecorded (add host.recorded place refs s.recording) ∧
      EndsCleanly s.recording (add host.recorded place refs s.recording) ∧
      ∀ evicted? t, add host.recorded place refs s.recording = .ok evicted? t →
        MadeWay s.pool place evicted? (s.cache.departed t.cache)) ∧
    ∀ newSize,
      resize host newSize s = mapState unrecorded (resize host.recorded newSize s.recording) ∧
      EndsCleanly s.recording (resize host.recorded newSize s.recording) := by
  have hc : s.recording.cache.Consistent s.recording.pool := h.consistent
  refine ⟨fun place refs => ?_, fun newSize => ?_⟩
  · exact ⟨add_recorded host place refs s.recording,
      add_endsCleanly hbudget.neverShrinks hc place refs⟩
  · exact ⟨resize_recorded host newSize s.recording, resize_endsCleanly hc newSize⟩

/-! ## A cache without a budget -/

/-- Surroundings in which writing fails while their state says so, and which have no budget. -/
def unbudgeted : Cache.Host Bool :=
  { meager with requestSlots := fun _ failing => (none, failing) }

/-- A full cache of two slots. -/
def fullCache : Hosted Bool :=
  Call.after unbudgeted
    (Call.after unbudgeted ⟨.ofSize 2 0, fourCollections, false⟩ (.add 0 1)) (.add 1 1)

/-- The same cache when nothing can be written. -/
def unwritable : Hosted Bool := { fullCache with host := true }

/-- The third collection makes the bearer of its name leave, and the fourth one the first; while
nothing can be written, the fourth one is refused. -/
theorem ends_cleanly_fullCache :
    unbudgeted.AsksBudget "collections" ∧ Run unbudgeted 2 0 fullCache ∧
      EndsCleanly fullCache.recording (add unbudgeted.recorded 2 1 fullCache.recording) ∧
      (stateOf (add unbudgeted.recorded 2 1 fullCache.recording)).calls =
        HookCall.ofRelease (fullCache.pool.get 1) ∧
      MadeWay fullCache.pool 3 (some 0) [0] ∧
      EndsCleanly unwritable.recording (add unbudgeted.recorded 3 1 unwritable.recording) ∧
      (stateOf (add unbudgeted.recorded 3 1 unwritable.recording)).cache.residents = [0, 1] := by
  have hbudget : unbudgeted.AsksBudget "collections" := ⟨fun _ => none, fun _ _ => rfl⟩
  have hrun : Run unbudgeted 2 0 fullCache :=
    .call (.call (.start _ _) (.add 0 1) (by decide)) (.add 1 1) (by decide)
  -- Others have made the store one that cannot be written.
  have hfailing : Run unbudgeted 2 0 unwritable := .others hrun _ _ (.refl _)
  refine ⟨hbudget, hrun, ((hrun.ends_cleanly hbudget).1 2 1).2.1, by decide, ?_,
    ((hfailing.ends_cleanly hbudget).1 3 1).2.1, by decide⟩
  have hadd : add unbudgeted.recorded 3 1 fullCache.recording =
      .ok (some 0) (stateOf (add unbudgeted.recorded 3 1 fullCache.recording)) :=
    eq_ok_of_outcomeOf (by decide)
  have hgone : fullCache.cache.departed
      (stateOf (add unbudgeted.recorded 3 1 fullCache.recording)).cache = [0] := by decide
  rw [← hgone]
  exact ((hrun.ends_cleanly hbudget).1 3 1).2.2 _ _ hadd

end Hosted

end XmlIndex
