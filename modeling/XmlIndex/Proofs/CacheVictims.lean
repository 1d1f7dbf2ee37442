import Mathlib.Algebra.Order.Field.Rat
import Mathlib.Data.List.MinMax
import XmlIndex.Proofs.CacheConsistency

/-! # Victims of a cache

The victim of a cache is the first among its sparsest residents that may leave: none of those is
sparser, and those in the slots before it are denser (`Cache.IsVictim`).  The loop over the slots
finds it, because comparing by cross multiplication is comparing densities as fractions, and keeping
the first of equal candidates is taking the least of a list (`Cache.victim?_eq_some_iff`).  Without
a victim all residents are in use (`Cache.victim?_eq_none_iff`). -/

namespace XmlIndex

namespace Collection

variable {a b : Collection} {now : Nat}

/-- The number of uses over the time since the last one. -/
def density (c : Collection) (now : Nat) : ℚ := c.refs.toNat / c.age now

/-- Nobody holds the lock for writing, and the collection is not pinned. -/
structure Eligible (c : Collection) : Prop where
  hasWriter : c.hasWriter = false
  pinned : c.pinned = false

/-- A collection may leave if it is eligible. -/
theorem mayLeave_iff {c : Collection} : c.mayLeave = true ↔ c.Eligible := by
  rw [mayLeave, isReadable, Bool.and_eq_true, Bool.not_eq_true', Bool.not_eq_true']
  exact ⟨fun h => ⟨h.1, h.2⟩, fun h => ⟨h.1, h.2⟩⟩

/-- No collection is so young that its density had no meaning. -/
theorem age_pos (c : Collection) (now : Nat) : 0 < c.age now := Nat.le_max_right _ 1

/-- Comparing products is comparing fractions. -/
theorem isSparser_iff : a.isSparser now b = true ↔ a.density now < b.density now := by
  have ha : (0 : ℚ) < a.age now := Nat.cast_pos.mpr (a.age_pos now)
  have hb : (0 : ℚ) < b.age now := Nat.cast_pos.mpr (b.age_pos now)
  rw [isSparser, decide_eq_true_iff, density, density, div_lt_div_iff₀ ha hb]
  norm_cast

end Collection

namespace Cache

variable {c : Cache} {pool : Pool} {slot : Nat} {place : Pool.Place}

/-! ## The least candidate -/

/-- The candidates are the residents that may leave. -/
theorem mem_candidates_iff {collection : Collection} :
    (slot, collection) ∈ c.candidates pool ↔
      ∃ place, c.resident? slot = some place ∧ (pool.get place).mayLeave = true ∧
        pool.get place = collection := by
  -- A resident that may leave is a candidate in its slot.
  have hcandidate : ∀ place slot',
      (if (pool.get place).mayLeave = true then some (slot', pool.get place) else none) =
          some (slot, collection) ↔
        (pool.get place).mayLeave = true ∧ slot' = slot ∧ pool.get place = collection := by
    intro place slot'
    split
    · next hleave => simp only [hleave, Option.some.injEq, Prod.mk.injEq, true_and]
    · next hleave => simp only [hleave, reduceCtorEq, Bool.false_eq_true, false_and]
  simp only [candidates, List.mem_filterMap, Prod.exists, List.mem_zipIdx_iff_getElem?,
    resident?_eq_some_iff]
  constructor
  · rintro ⟨resident?, slot', hslot, h⟩
    obtain ⟨place, rfl, h⟩ := Option.bind_eq_some_iff.mp h
    obtain ⟨hleave, rfl, rfl⟩ := (hcandidate place slot').mp h
    exact ⟨place, hslot, hleave, rfl⟩
  · rintro ⟨place, hslot, hleave, rfl⟩
    exact ⟨some place, slot, hslot, (hcandidate place slot).mpr ⟨hleave, rfl, rfl⟩⟩

/-- The candidates stand in the order of their slots. -/
theorem ascending_candidates (c : Cache) (pool : Pool) :
    (c.candidates pool).Pairwise fun a b => a.1 < b.1 := by
  have hslots : c.slots.zipIdx.Pairwise fun a b => a.2 < b.2 := by
    refine List.pairwise_map.mp ?_
    rw [List.zipIdx_map_snd]
    exact List.pairwise_lt_range'
  -- A candidate keeps the slot of its resident.
  have hslot : ∀ (entry : Option Pool.Place × Nat) (candidate : Nat × Collection),
      (do let place ← entry.1
          if (pool.get place).mayLeave then some (entry.2, pool.get place) else none) =
        some candidate → candidate.1 = entry.2 := by
    intro entry candidate h
    obtain ⟨place, _, h⟩ := Option.bind_eq_some_iff.mp h
    split at h
    · rw [← Option.some.inj h]
    · cases h
  refine hslots.filterMap _ fun entry entry' hlt candidate h candidate' h' => ?_
  rw [hslot entry candidate h, hslot entry' candidate' h']
  exact hlt

/-- Keeping the sparser one of two candidates is taking the least density of a list. -/
theorem foldl_sparser_eq_argmin (now : Nat) (l : List (Nat × Collection)) :
    l.foldl (sparser now) none = l.argmin fun candidate => candidate.2.density now := by
  -- Both keep the candidate they have unless the next one is less.
  have hstep : sparser now =
      List.argAux fun a b : Nat × Collection => a.2.density now < b.2.density now := by
    funext best? candidate
    cases best? with
    | none => rfl
    | some best => simp only [sparser, List.argAux, Collection.isSparser_iff]
  rw [hstep, List.argmin]

/-- What comes first in an ordered list stands in order to what comes later. -/
theorem eq_or_rel_of_idxOf_le {α : Type} [DecidableEq α] {R : α → α → Prop} {l : List α} {a b : α}
    (hl : l.Pairwise R) (ha : a ∈ l) (hb : b ∈ l) (h : l.idxOf a ≤ l.idxOf b) : a = b ∨ R a b := by
  rcases Nat.lt_or_eq_of_le h with hlt | heq
  · have hrel := List.pairwise_iff_getElem.mp hl _ _ (List.idxOf_lt_length_of_mem ha)
      (List.idxOf_lt_length_of_mem hb) hlt
    rw [List.getElem_idxOf, List.getElem_idxOf] at hrel
    exact .inr hrel
  · exact .inl ((List.idxOf_inj ha).mp heq)

/-! ## The victim -/

/-- The victim at this time: a resident that may leave, no sparser than any other one that may
leave, and denser than none in a slot before it. -/
structure IsVictim (c : Cache) (pool : Pool) (now slot : Nat) (place : Pool.Place) : Prop where
  resident : c.resident? slot = some place
  eligible : (pool.get place).Eligible
  least : ∀ slot' other, c.resident? slot' = some other → (pool.get other).Eligible →
    (pool.get place).density now ≤ (pool.get other).density now
  first : ∀ slot' other, c.resident? slot' = some other → (pool.get other).Eligible →
    slot' < slot → (pool.get place).density now < (pool.get other).density now

namespace IsVictim

variable {now slot' : Nat} {other : Pool.Place}

/-- No victim is in a slot behind another one. -/
theorem slot_le (h : c.IsVictim pool now slot place) (h' : c.IsVictim pool now slot' other) :
    slot ≤ slot' := by
  refine Nat.le_of_not_lt fun hlt => ?_
  have hless := h.first slot' other h'.resident h'.eligible hlt
  exact absurd hless (not_lt_of_ge (h'.least slot place h.resident h.eligible))

/-- There is one victim at most. -/
theorem slot_eq (h : c.IsVictim pool now slot place) (h' : c.IsVictim pool now slot' other) :
    slot = slot' :=
  Nat.le_antisymm (h.slot_le h') (h'.slot_le h)

/-- Only the slots and the residents count. -/
theorem congr {c' : Cache} {pool' : Pool} (h : c.IsVictim pool now slot place)
    (hslots : c'.slots = c.slots)
    (hget : ∀ other ∈ c.residents, pool'.get other = pool.get other) :
    c'.IsVictim pool' now slot place := by
  have hresident : ∀ slot, c'.resident? slot = c.resident? slot := fun slot => by
    rw [resident?, hslots, resident?]
  have hgetSlot : ∀ {slot other}, c.resident? slot = some other →
      pool'.get other = pool.get other := fun h => hget _ (mem_residents h)
  -- Each field reads the slots and the residents only.
  constructor
  · rw [hresident]
    exact h.resident
  · rw [hgetSlot h.resident]
    exact h.eligible
  · intro slot' other hslot' heligible
    -- The comparison is with a resident, which is read the same in both.
    rw [hresident] at hslot'
    rw [hgetSlot hslot'] at heligible
    rw [hgetSlot h.resident, hgetSlot hslot']
    exact h.least slot' other hslot' heligible
  · intro slot' other hslot' heligible
    rw [hresident] at hslot'
    rw [hgetSlot hslot'] at heligible
    rw [hgetSlot h.resident, hgetSlot hslot']
    exact h.first slot' other hslot' heligible

end IsVictim

/-- There is no victim if nobody may leave. -/
theorem victim?_eq_none_iff :
    c.victim? pool = none ↔ ∀ place ∈ c.residents, ¬ (pool.get place).Eligible := by
  rw [victim?, foldl_sparser_eq_argmin, Option.map_eq_none_iff, List.argmin_eq_none,
    List.eq_nil_iff_forall_not_mem]
  -- The candidates are the residents that may leave, each with its slot.
  constructor
  · intro h place hplace heligible
    obtain ⟨slot, hslot⟩ := mem_residents_iff.mp hplace
    exact h (slot, pool.get place)
      (mem_candidates_iff.mpr ⟨place, hslot, Collection.mayLeave_iff.mpr heligible, rfl⟩)
  · rintro h ⟨slot, collection⟩ hmem
    obtain ⟨place, hslot, hleave, rfl⟩ := mem_candidates_iff.mp hmem
    exact h place (mem_residents hslot) (Collection.mayLeave_iff.mp hleave)

/-- Without a victim all residents are in use. -/
theorem mayLeave_of_victim?_eq_none (h : c.victim? pool = none) (hplace : place ∈ c.residents) :
    (pool.get place).mayLeave = false :=
  Bool.eq_false_iff.mpr fun hleave =>
    victim?_eq_none_iff.mp h place hplace (Collection.mayLeave_iff.mp hleave)

/-- What the loop over the slots finds is the victim. -/
theorem isVictim_of_victim? (h : c.victim? pool = some slot) :
    ∃ place, c.IsVictim pool c.uses slot place := by
  rw [victim?, foldl_sparser_eq_argmin, Option.map_eq_some_iff] at h
  obtain ⟨⟨slot, collection⟩, hbest, rfl⟩ := h
  obtain ⟨place, hslot, hleave, rfl⟩ := mem_candidates_iff.mp (List.argmin_mem hbest)
  have hcandidate : ∀ slot' other, c.resident? slot' = some other → (pool.get other).Eligible →
      (slot', pool.get other) ∈ c.candidates pool := fun slot' other hslot' heligible =>
    mem_candidates_iff.mpr ⟨other, hslot', Collection.mayLeave_iff.mpr heligible, rfl⟩
  refine ⟨place, hslot, Collection.mayLeave_iff.mp hleave, ?_, ?_⟩
  · intro slot' other hslot' heligible
    exact List.le_of_mem_argmin (hcandidate slot' other hslot' heligible) hbest
  · intro slot' other hslot' heligible hlt
    refine lt_of_not_ge fun hle => ?_
    -- Of two equal candidates the one in the later slot would have been chosen.
    have hmem := hcandidate slot' other hslot' heligible
    have hindex := List.index_of_argmin hbest hmem hle
    rcases eq_or_rel_of_idxOf_le (c.ascending_candidates pool) (List.argmin_mem hbest) hmem
      hindex with hequal | hslots
    · exact Nat.ne_of_gt hlt (Prod.mk.inj hequal).1
    · exact Nat.lt_asymm hslots hlt

/-- The slot that is found is that of the victim. -/
theorem victim?_eq_some_iff :
    c.victim? pool = some slot ↔ ∃ place, c.IsVictim pool c.uses slot place := by
  refine ⟨isVictim_of_victim?, fun ⟨place, h⟩ => ?_⟩
  cases hvictim : c.victim? pool with
  | none => exact absurd h.eligible (victim?_eq_none_iff.mp hvictim _ (mem_residents h.resident))
  | some slot' =>
    obtain ⟨_, h'⟩ := isVictim_of_victim? hvictim
    rw [h.slot_eq h']

/-- The victim is a resident that may leave. -/
theorem victim?_eq_some (h : c.victim? pool = some slot) :
    ∃ place, c.resident? slot = some place ∧ (pool.get place).mayLeave = true := by
  obtain ⟨place, hvictim⟩ := isVictim_of_victim? h
  exact ⟨place, hvictim.resident, Collection.mayLeave_iff.mpr hvictim.eligible⟩

end Cache

end XmlIndex
