import XmlIndex.Proofs.CacheAdmission

/-! # Growth of full caches

A cache asks for more slots after something has come into the slot of a victim, so it asks when it
is full (`Hosted.Replaced`).  Where fewer slots than there are are never granted, the residents then
keep their slots, and the new slots stand behind them (`Hosted.Grown`); growing answers whatever the
surroundings say (`Hosted.Replaced.exists_grown`). -/

namespace XmlIndex

namespace Hosted

variable {σ : Type} {host : Cache.Host σ} {s t u : Hosted σ} {slot : Nat}
  {place victim : Pool.Place}

/-! ## Growing -/

/-- What growing comes to: nothing was asked for, or slots were asked for and refused, or they were
granted and stand free behind those there were.  The count of replacements starts anew when slots
have been asked for. -/
inductive Grown (host : Cache.Host σ) (s : Hosted σ) : Hosted σ → Prop
  | unasked (few : s.cache.replacements ≤ s.cache.threshold) : Grown host s s
  | refused (refuses : (host.requestSlots s.cache.capacity s.host).1 = none) :
    Grown host s ({ s with
      host := (host.requestSlots s.cache.capacity s.host).2 }.withCounts s.cache.uses 0)
  | granted {size : Nat} {t : Hosted σ}
    (grants : (host.requestSlots s.cache.capacity s.host).1 = some size)
    (slots : t.cache.slots = s.cache.slots ++ List.replicate (size - s.cache.capacity) none)
    (replacements : t.cache.replacements = 0) (threshold : t.cache.threshold = s.cache.threshold)
    (asked : t.host = (host.requestSlots s.cache.capacity s.host).2) : Grown host s t

/-- Growing a full cache keeps all slots, unless fewer are granted than there are. -/
theorem exists_grown (hgrants : host.NeverShrinks) (hfull : s.cache.freeSlot? = none) :
    ∃ t, grow host s = .ok () t ∧ Grown host s t := by
  have hslots := Cache.slots_eq_of_full hfull
  -- A full cache has as many residents as slots.
  have hcapacity : s.cache.residents.length = s.cache.capacity := by
    rw [Cache.capacity, hslots, List.length_map]
  rw [grow_eq]
  split
  · cases hgranted : (host.requestSlots s.cache.capacity s.host).1 with
    | none =>
      simp only [hgranted]
      exact ⟨_, rfl, .refused hgranted⟩
    | some size =>
      -- Whoever grants no fewer slots leaves room for all residents.
      have hfits : s.cache.residents.length ≤ size :=
        hcapacity ▸ hgrants _ _ _ hgranted
      simp only [hgranted]
      refine ⟨_, resize_of_fits hfits, .granted hgranted ?_ rfl rfl rfl⟩
      rw [hslots, ← hcapacity]
      rfl
  · next hfew => exact ⟨s, rfl, .unasked (Nat.le_of_not_lt hfew)⟩

/-- Whatever was asked for and granted, new slots stand behind those there were. -/
theorem Grown.exists_slots (h : Grown host s t) :
    ∃ n, t.cache.slots = s.cache.slots ++ List.replicate n none := by
  cases h with
  | unasked _ => exact ⟨0, (List.append_nil _).symm⟩
  | refused _ => exact ⟨0, (List.append_nil _).symm⟩
  | granted _ slots _ _ _ => exact ⟨_, slots⟩

/-! ## Replacements -/

/-- A collection has come into the slot of a victim of a full cache, which counts as one
replacement more. -/
structure Replaced (s : Hosted σ) (slot : Nat) (victim place : Pool.Place) (u : Hosted σ) :
    Prop where
  full : s.cache.freeSlot? = none
  resident : s.cache.resident? slot = some victim
  slots : u.cache.slots = s.cache.slots.set slot (some place)
  replacements : u.cache.replacements = s.cache.replacements + 1
  threshold : u.cache.threshold = s.cache.threshold

theorem Replaced.freeSlot?_eq_none (h : Replaced s slot victim place u) :
    u.cache.freeSlot? = none := by
  refine Cache.freeSlot?_eq_none_iff.mpr fun other hother => ?_
  rw [Cache.capacity, h.slots, List.length_set] at hother
  obtain ⟨resident, hresident⟩ := Cache.freeSlot?_eq_none_iff.mp h.full other hother
  rw [Cache.resident?_eq_some_iff] at hresident
  simp only [Cache.resident?_eq_some_iff, h.slots, List.getElem?_set]
  -- The slot of the newcomer is taken by it, and the others are as they were.
  split
  · next heq =>
    subst heq
    exact ⟨place, if_pos hother⟩
  · exact ⟨resident, hresident⟩

theorem Replaced.exists_grown (h : Replaced s slot victim place u) (hgrants : host.NeverShrinks) :
    ∃ t, grow host u = .ok () t ∧ Grown host u t :=
  Hosted.exists_grown hgrants h.freeSlot?_eq_none

/-- Somebody leaves for want of room if no slot is free, there is a victim, and it can be
released. -/
theorem makeRoom_eq_ok_iff :
    makeRoom host s = .ok (slot, some victim) t ↔
      s.cache.freeSlot? = none ∧ s.cache.victim? s.pool = some slot ∧
        s.cache.resident? slot = some victim ∧
        ∃ u, release host victim s = .ok () u ∧ u.vacate slot victim = t := by
  rw [makeRoom_eq]
  constructor
  · intro h
    split at h
    -- With a free slot nobody would have left.
    · cases (EStateM.Result.ok.inj h).1
    · next hfull =>
      split at h
      · cases h
      · next slot' hvictim =>
        obtain ⟨other, hslot, _⟩ := Cache.victim?_eq_some hvictim
        simp only [evict_eq, hslot] at h
        -- A failing release ends the call before the slot is emptied.
        cases hrelease : release host other s with
        | error e u =>
          simp only [hrelease] at h
          cases h
        | ok _ u =>
          simp only [hrelease] at h
          obtain ⟨hfound, rfl⟩ := EStateM.Result.ok.inj h
          obtain ⟨rfl, hother⟩ := Prod.mk.inj hfound
          obtain rfl := Option.some.inj hother
          exact ⟨hfull, hvictim, hslot, u, hrelease, rfl⟩
  · rintro ⟨hfull, hvictim, hslot, u, hrelease, rfl⟩
    simp only [hfull, hvictim, evict_eq, hslot, hrelease]

/-- Whoever comes into the slot that was made has replaced the victim. -/
theorem replaced_of_makeRoom (h : makeRoom host t = .ok (slot, some victim) u)
    (hslots : t.cache.slots = s.cache.slots)
    (hreplacements : t.cache.replacements = s.cache.replacements)
    (hthreshold : t.cache.threshold = s.cache.threshold) :
    Replaced s slot victim place
      ((u.bring slot place).withCounts u.cache.uses (u.cache.replacements + 1)) := by
  obtain ⟨hfull, _, hslot, v, hrelease, rfl⟩ := makeRoom_eq_ok_iff.mp h
  -- The release touches the collection, and not the cache it is in.
  have hcache : v.cache = t.cache := release_cache hrelease
  constructor
  · rwa [Cache.freeSlot?, ← hslots]
  · rwa [Cache.resident?, ← hslots]
  · show (v.cache.slots.set slot none).set slot (some place) = s.cache.slots.set slot (some place)
    rw [List.set_set, hcache, hslots]
  · show v.cache.replacements + 1 = s.cache.replacements + 1
    rw [hcache, hreplacements]
  · show v.cache.threshold = s.cache.threshold
    rw [hcache, hthreshold]

end Hosted

end XmlIndex
