import XmlIndex.Collection.Catalog
import XmlIndex.Proofs.BudgetLimits
import XmlIndex.Proofs.CacheGrowth

/-! # Growth within what was granted

A cache is entered into a budget that has no other cache.  From then on everything may be called
but a resize, successfully or not, and between the calls others may do to the collections what they
like (`Hosted.Budgeted`).  Look-ups are not among the calls, as they change nothing.

A call changes nothing that slots are granted by (`Hosted.SameGrants`), except when `add` makes a
victim leave a full cache; then the cache may ask for more slots, and what it gets the budget has on
record (`Hosted.Stepped`).  So the budget always knows how many slots there are, and there are never
more than it allows or there were at first (`Hosted.Budgeted.grows_as_granted`). -/

namespace XmlIndex

namespace Budget

variable {b : Budget} {cacheName : String} {limit size : Nat}

/-- A cache does not count among the others. -/
theorem others_register (b : Budget) (cacheName : String) (size : Nat) :
    (b.register cacheName size).others cacheName = b.others cacheName := by
  -- The size of the cache itself is left out in either case.
  have hsizes : (b.sizes.insert cacheName size).erase cacheName = b.sizes.erase cacheName := by
    refine SortedMap.ext_get? fun other => ?_
    rw [SortedMap.get?_erase_eq, SortedMap.get?_erase_eq, SortedMap.get?_insert_eq]
    split
    · rfl
    · next hne => rw [if_neg (Ne.symm hne)]
  exact congrArg total hsizes

/-- The budget has this limit, and in it there is this cache of this size and no other one. -/
structure Holds (b : Budget) (cacheName : String) (limit size : Nat) : Prop where
  limit_eq : b.limit = limit
  alone : b.others cacheName = 0
  sizeOf? : b.sizeOf? cacheName = some size

/-- A cache that is entered into an empty budget is alone in it. -/
theorem holds_register (limit : Nat) (factor : Float) (cacheName : String) (size : Nat) :
    ((ofFactor limit factor).register cacheName size).Holds cacheName limit size where
  limit_eq := rfl
  alone := others_register (ofFactor limit factor) cacheName size
  sizeOf? := (sizeOf?_register (ofFactor limit factor) cacheName cacheName size).trans (if_pos rfl)

/-- A cache that is alone gets more slots within the limit, or nothing has happened. -/
theorem Holds.exists_request (h : b.Holds cacheName limit size) :
    (∃ granted b', b.request cacheName size = (some granted, b') ∧
      b'.Holds cacheName limit granted ∧ size < granted ∧ granted ≤ limit) ∨
    b.request cacheName size = (none, b) := by
  rcases b.exists_request cacheName size with ⟨granted, hrequest, hmore, hroom⟩ | ⟨hrequest, _⟩
  -- No other cache takes room, so the whole limit is open.
  · rw [h.alone, h.limit_eq, Nat.zero_add] at hroom
    refine .inl ⟨granted, _, hrequest, ⟨h.limit_eq, ?_, ?_⟩, hmore, hroom⟩
    · rw [others_register, h.alone]
    · rw [sizeOf?_register, if_pos rfl]
  · exact .inr hrequest

end Budget

/-- The budget of the surroundings changes only when slots are asked for, and the cache has this
name in it. -/
structure Cache.Host.KeepsBudget {σ : Type} (host : Cache.Host σ) (budget? : σ → Option Budget)
    (cacheName : String) : Prop where
  invalidate : ∀ name state, budget? (host.invalidate name state) = budget? state
  writeBack : ∀ collection state,
    budget? (Action.stateOf (host.writeBack collection state)) = budget? state
  requestSlots : ∀ current state,
    (host.requestSlots current state).map id budget? =
      Budget.requestFrom (budget? state) cacheName current

/-- A manager with a budget never takes slots away. -/
theorem Cache.Host.KeepsBudget.neverShrinks {σ : Type} {host : Cache.Host σ}
    {budget? : σ → Option Budget} {cacheName : String}
    (h : host.KeepsBudget budget? cacheName) : host.NeverShrinks :=
  Cache.Host.AsksBudget.neverShrinks ⟨budget?, h.requestSlots⟩

/-- What is asked of the surroundings is asked of their budget. -/
theorem Cache.Host.KeepsBudget.asked {σ : Type} {host : Cache.Host σ}
    {budget? : σ → Option Budget} {cacheName : String} (h : host.KeepsBudget budget? cacheName)
    {state : σ} {b : Budget} (hb : budget? state = some b) (current : Nat) :
    (host.requestSlots current state).1 = (b.request cacheName current).1 ∧
      budget? (host.requestSlots current state).2 = some (b.request cacheName current).2 := by
  have hasked := h.requestSlots current state
  rw [hb] at hasked
  exact Prod.mk.inj hasked

/-- What a catalog writes is not in its budget. -/
theorem Catalog.hosting_keepsBudget :
    (hosting : Cache.Host (Ground (Option Budget))).KeepsBudget Ground.source cacheName where
  invalidate _ _ := rfl
  writeBack collection ground := by
    show (Action.stateOf ((if collection.dirty then (do
        onGroundStore (writeRecord collection)
        return true : Action (Ground (Option Budget)) Bool)
      else return false) ground)).source = ground.source
    -- Only a dirty collection is written, and that goes to the store.
    split
    · cases hwrite : onGroundStore (writeRecord collection) ground with
      | ok _ ground' =>
        obtain ⟨_, _, rfl⟩ := Action.on_eq_ok_iff.mp hwrite
        rw [Action.bind_of_ok hwrite]
        rfl
      | error e ground' =>
        obtain ⟨_, _, rfl⟩ := Action.on_eq_error_iff.mp hwrite
        rw [Action.bind_of_error hwrite]
        rfl
    · rfl
  requestSlots _ _ := rfl

namespace Hosted

variable {σ : Type} {host : Cache.Host σ} {budget? : σ → Option Budget} {cacheName : String}
  {s t u : Hosted σ} {slot size threshold limit : Nat} {factor : Float}
  {place victim : Pool.Place}

/-! ## Calls that ask for no slots -/

/-- There are as many slots and replacements as there were, and the budget has not changed. -/
structure SameGrants (budget? : σ → Option Budget) (s t : Hosted σ) : Prop where
  capacity : t.cache.capacity = s.cache.capacity
  replacements : t.cache.replacements = s.cache.replacements
  threshold : t.cache.threshold = s.cache.threshold
  budget? : budget? t.host = budget? s.host

/-- Nothing has changed in a state itself. -/
theorem SameGrants.refl (s : Hosted σ) : SameGrants budget? s s := ⟨rfl, rfl, rfl, rfl⟩

/-- Nothing has changed over two steps if nothing has in either. -/
theorem SameGrants.trans (h : SameGrants budget? s t) (h' : SameGrants budget? t u) :
    SameGrants budget? s u where
  capacity := h'.capacity.trans h.capacity
  replacements := h'.replacements.trans h.replacements
  threshold := h'.threshold.trans h.threshold
  budget? := h'.budget?.trans h.budget?

/-- Emptying a slot does not change how many there are. -/
theorem sameGrants_vacate (s : Hosted σ) (slot : Nat) (place : Pool.Place) :
    SameGrants budget? s (s.vacate slot place) :=
  ⟨Cache.capacity_vacate .., rfl, rfl, rfl⟩

/-- Filling a slot does not change how many there are. -/
theorem sameGrants_bring (s : Hosted σ) (slot : Nat) (place : Pool.Place) :
    SameGrants budget? s (s.bring slot place) :=
  ⟨List.length_set, rfl, rfl, rfl⟩

section

variable (hbudget : host.KeepsBudget budget? cacheName)

include hbudget

/-- A release asks for no slots. -/
theorem release_sameGrants (place : Pool.Place) (s : Hosted σ) :
    SameGrants budget? s (Action.stateOf (release host place s)) := by
  have hwritten := hbudget.writeBack (s.pool.get place)
    (host.invalidate (s.pool.get place).name s.host)
  rw [hbudget.invalidate] at hwritten
  rw [release_eq]
  split <;>
  · next hwrite =>
    rw [hwrite] at hwritten
    exact ⟨rfl, rfl, rfl, hwritten⟩

/-- An eviction asks for no slots. -/
theorem evict_sameGrants (slot : Nat) (s : Hosted σ) :
    SameGrants budget? s (Action.stateOf (evict host slot s)) := by
  rw [evict_eq]
  split
  · exact .refl s
  · next place _ =>
    -- A release calls hooks only, and none of them asks the manager.
    have hreleased := release_sameGrants hbudget place s
    split
    · next hrelease =>
      rw [hrelease] at hreleased
      exact hreleased.trans (sameGrants_vacate _ slot place)
    · next hrelease =>
      rw [hrelease] at hreleased
      exact hreleased

/-- Freeing a name asks for no slots. -/
theorem evictName_sameGrants (name : String) (s : Hosted σ) :
    SameGrants budget? s (Action.stateOf (evictName host name s)) := by
  rw [evictName_eq]
  split
  · exact .refl s
  · next slot _ =>
    have hevicted := evict_sameGrants hbudget slot s
    split
    · next hevict =>
      rw [hevict] at hevicted
      exact hevicted
    · next hevict =>
      rw [hevict] at hevicted
      exact hevicted

/-- Making room asks for no slots. -/
theorem makeRoom_sameGrants (s : Hosted σ) :
    SameGrants budget? s (Action.stateOf (makeRoom host s)) := by
  rw [makeRoom_eq]
  split
  · exact .refl s
  · split
    · exact .refl s
    -- With a free slot or without a victim nothing is called at all.
    · next slot _ =>
      have hevicted := evict_sameGrants hbudget slot s
      split
      · next hevict =>
        rw [hevict] at hevicted
        exact hevicted
      · next hevict =>
        rw [hevict] at hevicted
        exact hevicted

/-- A removal asks for no slots. -/
theorem remove_sameGrants (key : Nat) (s : Hosted σ) :
    SameGrants budget? s (Action.stateOf (remove host key s)) := by
  rw [remove, Action.get_bind]
  cases s.cache.keys.get? key with
  | none => exact .refl s
  | some slot =>
    dsimp only
    cases s.cache.resident? slot with
    | none => exact ⟨rfl, rfl, rfl, rfl⟩
    | some place => exact ⟨List.length_set, rfl, rfl, hbudget.invalidate _ _⟩

end

/-- A touch asks for no slots. -/
theorem touch_sameGrants (key : Nat) (s : Hosted σ) :
    SameGrants budget? s (Action.stateOf (touch key s)) := by
  rw [touch_eq]
  split
  · exact .refl s
  · exact ⟨rfl, rfl, rfl, rfl⟩

/-! ## Calls that may ask for slots -/

/-- If no slot is free after a name has been freed, nobody had it. -/
theorem evictName_eq_self {name : String} (h : evictName host name s = .ok () t)
    (hfull : t.cache.freeSlot? = none) : t = s := by
  rw [evictName_eq] at h
  split at h
  · exact (EStateM.Result.ok.inj h).2.symm
  · next slot _ =>
    rw [evict_eq] at h
    cases hslot : s.cache.resident? slot with
    | none =>
      rw [hslot] at h
      exact (EStateM.Result.ok.inj h).2.symm
    | some place =>
      rw [hslot] at h
      dsimp only at h
      -- Somebody would have left for the name, and the call has not failed.
      cases hrelease : release host place s with
      | error e u =>
        rw [hrelease] at h
        cases h
      | ok _ u =>
        rw [hrelease] at h
        obtain ⟨_, rfl⟩ := EStateM.Result.ok.inj h
        -- The slot of the resident with the name would be free now.
        have hlt : slot < (u.vacate slot place).cache.capacity := by
          have hcapacity : (u.vacate slot place).cache.capacity = u.cache.capacity :=
            Cache.capacity_vacate ..
          rw [hcapacity, show u.cache = s.cache from release_cache hrelease]
          exact Cache.lt_capacity hslot
        obtain ⟨other, hother⟩ := Cache.freeSlot?_eq_none_iff.mp hfull slot hlt
        rw [show (u.vacate slot place).cache.resident? slot = none from
          Cache.resident?_vacate_self ..] at hother
        cases hother

/-- A collection with a new key comes in for a victim if that makes room, and the cache grows as it
can. -/
theorem exists_replaced {refs : UInt32} (hgrants : host.NeverShrinks)
    (hkey : s.cache.get? (s.pool.get place).key = none)
    (hname : evictName host (s.pool.get place).name
      (s.withCounts (s.cache.uses + 1) s.cache.replacements) = .ok () t)
    (hroom : makeRoom host (t.withUse place refs t.cache.uses) = .ok (slot, some victim) u) :
    ∃ v w, add host place refs s = .ok (some victim) w ∧ Replaced s slot victim place v ∧
      v.host = u.host ∧ Grown host v w := by
  -- Somebody had to leave for want of room, so nobody has left for the name.
  obtain rfl := evictName_eq_self hname (makeRoom_eq_ok_iff.mp hroom).1
  have hreplaced : Replaced s slot victim place _ := replaced_of_makeRoom hroom rfl rfl rfl
  obtain ⟨w, hgrow, hgrown⟩ := hreplaced.exists_grown hgrants
  refine ⟨_, w, ?_, hreplaced, rfl, hgrown⟩
  rw [add_of_new_key hkey]
  simp only [hname, hroom, hgrow]

/-- What a call comes to that is no resize: nothing has changed that slots are granted by, or a
collection has come in for a victim, and the cache has grown as it could. -/
inductive Stepped (host : Cache.Host σ) (budget? : σ → Option Budget) (s : Hosted σ) :
    Call → Hosted σ → Prop
  | same {call : Call} {t : Hosted σ} (same : SameGrants budget? s t) :
    Stepped host budget? s call t
  | replaced {place victim : Pool.Place} {refs : UInt32} {slot : Nat} {t u : Hosted σ}
    (answers : add host place refs s = .ok (some victim) t)
    (replaced : Replaced s slot victim place u) (budget : budget? u.host = budget? s.host)
    (grown : Grown host u t) : Stepped host budget? s (.add place refs) t

/-- Adding a collection asks for slots only after it has come in for a victim. -/
theorem add_stepped (hbudget : host.KeepsBudget budget? cacheName) (place : Pool.Place)
    (refs : UInt32) (s : Hosted σ) :
    Stepped host budget? s (.add place refs) (Action.stateOf (add host place refs s)) := by
  cases hkey : s.cache.get? (s.pool.get place).key with
  | some resident =>
    rw [add_eq, hkey]
    exact .same ⟨rfl, rfl, rfl, rfl⟩
  -- No resident has the key, so the collection needs a slot.
  | none =>
    have hadd : add host place refs s = _ := add_of_new_key hkey
    -- Up to where the collection comes in, no step asks for slots.
    have hcounted : SameGrants budget? s (s.withCounts (s.cache.uses + 1) s.cache.replacements) :=
      ⟨rfl, rfl, rfl, rfl⟩
    have hfreed := hcounted.trans (evictName_sameGrants hbudget (s.pool.get place).name _)
    cases hname : evictName host (s.pool.get place).name
        (s.withCounts (s.cache.uses + 1) s.cache.replacements) with
    | error e t =>
      rw [hname] at hadd hfreed
      rw [hadd]
      exact .same hfreed
    | ok _ t =>
      rw [hname] at hadd hfreed
      have hused : SameGrants budget? t (t.withUse place refs t.cache.uses) :=
        ⟨rfl, rfl, rfl, rfl⟩
      have hroomed := (hfreed.trans hused).trans (makeRoom_sameGrants hbudget _)
      cases hroom : makeRoom host (t.withUse place refs t.cache.uses) with
      | error e u =>
        simp only [hroom] at hadd hroomed
        rw [hadd]
        exact .same hroomed
      | ok found u =>
        obtain ⟨slot, victim?⟩ := found
        simp only [hroom] at hadd hroomed
        cases victim? with
        -- A slot was free, and nothing is asked for.
        | none =>
          rw [hadd]
          exact .same (hroomed.trans (sameGrants_bring u slot place))
        | some victim =>
          -- A victim has left for it, so the cache may have grown.
          obtain ⟨v, w, hadd, hreplaced, hhost, hgrown⟩ :=
            exists_replaced hbudget.neverShrinks hkey hname hroom
          rw [hadd]
          exact .replaced hadd hreplaced (hhost ▸ hroomed.budget?) hgrown

/-! ## What is granted -/

/-- The budget knows how many slots there are, which are no fewer than at first, and no more than
at first or than its limit; and there have been no more replacements than the threshold says since
slots were last asked for. -/
structure WithinGrants (budget? : σ → Option Budget) (cacheName : String)
    (size threshold limit : Nat) (s : Hosted σ) : Prop where
  exists_budget : ∃ b, budget? s.host = some b ∧ b.Holds cacheName limit s.cache.capacity
  threshold_eq : s.cache.threshold = threshold
  replacements_le : s.cache.replacements ≤ threshold
  size_le : size ≤ s.cache.capacity
  capacity_le : s.cache.capacity ≤ max size limit

/-- What changes nothing that slots are granted by keeps within the grants. -/
theorem WithinGrants.of_sameGrants (h : WithinGrants budget? cacheName size threshold limit s)
    (hsame : SameGrants budget? s t) : WithinGrants budget? cacheName size threshold limit t where
  exists_budget := by
    rw [hsame.budget?, hsame.capacity]
    exact h.exists_budget
  threshold_eq := hsame.threshold.trans h.threshold_eq
  replacements_le := hsame.replacements ▸ h.replacements_le
  size_le := hsame.capacity ▸ h.size_le
  capacity_le := hsame.capacity ▸ h.capacity_le

/-- A cache gets the slots that the budget then has on record. -/
theorem Grown.exists_budget (hbudget : host.KeepsBudget budget? cacheName) (h : Grown host s t)
    (hs : ∃ b, budget? s.host = some b ∧ b.Holds cacheName limit s.cache.capacity) :
    (∃ b, budget? t.host = some b ∧ b.Holds cacheName limit t.cache.capacity) ∧
      s.cache.capacity ≤ t.cache.capacity ∧
      t.cache.capacity ≤ max s.cache.capacity limit := by
  obtain ⟨b, hb, hholds⟩ := hs
  obtain ⟨hanswer, hafter⟩ := hbudget.asked hb s.cache.capacity
  -- The budget grants more slots within the limit, or answers as if it had not been asked.
  rcases hholds.exists_request with ⟨size, b', hrequest, hholds', hmore, hroom⟩ | hrequest
  · rw [hrequest] at hanswer hafter
    cases h with
    | unasked _ => exact ⟨⟨b, hb, hholds⟩, Nat.le_refl _, Nat.le_max_left ..⟩
    | refused refuses =>
      rw [refuses] at hanswer
      cases hanswer
    | granted grants slots _ _ asked =>
      -- The cache has the size that was granted, and that is on record.
      obtain rfl := Option.some.inj (grants.symm.trans hanswer)
      have hcapacity : t.cache.capacity = _ := congrArg List.length slots
      rw [List.length_append, List.length_replicate, ← Cache.capacity,
        Nat.add_sub_cancel' (Nat.le_of_lt hmore)] at hcapacity
      rw [hcapacity, asked]
      exact ⟨⟨b', hafter, hholds'⟩, Nat.le_of_lt hmore, Nat.le_trans hroom (Nat.le_max_right ..)⟩
  · rw [hrequest] at hanswer hafter
    cases h with
    | unasked _ => exact ⟨⟨b, hb, hholds⟩, Nat.le_refl _, Nat.le_max_left ..⟩
    | refused _ => exact ⟨⟨b, hafter, hholds⟩, Nat.le_refl _, Nat.le_max_left ..⟩
    | granted grants _ _ _ _ =>
      rw [grants] at hanswer
      cases hanswer

/-- After too many replacements a cache does get more slots if there is room for one. -/
theorem Grown.lt_capacity (hbudget : host.KeepsBudget budget? cacheName) (h : Grown host s t)
    (hmany : s.cache.threshold < s.cache.replacements) {b : Budget}
    (hb : budget? s.host = some b)
    (hroom : b.others cacheName + s.cache.capacity < b.limit) :
    s.cache.capacity < t.cache.capacity := by
  obtain ⟨hanswer, _⟩ := hbudget.asked hb s.cache.capacity
  rcases b.exists_request cacheName s.cache.capacity with
    ⟨size, hrequest, hmore, _⟩ | ⟨_, hfull⟩
  · rw [hrequest] at hanswer
    cases h with
    -- There were too many replacements not to ask.
    | unasked few => exact absurd hmany (Nat.not_lt_of_le few)
    | refused refuses =>
      rw [refuses] at hanswer
      cases hanswer
    | granted grants slots _ _ _ =>
      obtain rfl := Option.some.inj (grants.symm.trans hanswer)
      rw [Cache.capacity, Cache.capacity, slots, List.length_append, List.length_replicate,
        ← Cache.capacity]
      omega
  · exact absurd hroom (Nat.not_lt_of_le hfull)

/-- Growing does not change the threshold. -/
theorem Grown.threshold_eq (h : Grown host s t) : t.cache.threshold = s.cache.threshold := by
  cases h with
  | unasked _ => rfl
  | refused _ => rfl
  | granted _ _ _ threshold _ => exact threshold

/-- After growing, replacements are within the threshold. -/
theorem Grown.replacements_le (h : Grown host s t) :
    t.cache.replacements ≤ t.cache.threshold := by
  cases h with
  | unasked few => exact few
  | refused _ => exact Nat.zero_le _
  | granted _ _ replacements _ _ => exact replacements ▸ Nat.zero_le _

/-- A replacement does not change the number of slots. -/
theorem Replaced.capacity (h : Replaced s slot victim place u) :
    u.cache.capacity = s.cache.capacity := by
  rw [Cache.capacity, h.slots, List.length_set, Cache.capacity]

/-- A call that is no resize keeps within the grants. -/
theorem WithinGrants.stepped (hbudget : host.KeepsBudget budget? cacheName)
    (h : WithinGrants budget? cacheName size threshold limit s) {call : Call}
    (hstep : Stepped host budget? s call t) :
    WithinGrants budget? cacheName size threshold limit t := by
  cases hstep with
  | same same => exact h.of_sameGrants same
  | replaced _ replaced budget grown =>
    have hexists := h.exists_budget
    rw [← budget, ← replaced.capacity] at hexists
    obtain ⟨hexists', hle, hlimit⟩ := grown.exists_budget hbudget hexists
    rw [replaced.capacity] at hle hlimit
    -- The threshold is the one that the cache was made with.
    have hthreshold : t.cache.threshold = threshold :=
      grown.threshold_eq.trans (replaced.threshold.trans h.threshold_eq)
    refine ⟨hexists', hthreshold, ?_, Nat.le_trans h.size_le hle, ?_⟩
    · exact hthreshold ▸ grown.replacements_le
    · exact Nat.le_trans hlimit (Nat.max_le.mpr ⟨h.capacity_le, Nat.le_max_right ..⟩)

/-! ## Runs -/

/-- Any call but a resize. -/
def Call.LeavesSize : Call → Prop
  | add _ _ | touch _ | remove _ => True
  | resize _ => False

/-- What a call that is no resize comes to. -/
theorem Call.stepped (hbudget : host.KeepsBudget budget? cacheName) (s : Hosted σ) {call : Call}
    (h : call.LeavesSize) : Stepped host budget? s call (call.after host s) := by
  cases call with
  | add place refs => exact add_stepped hbudget place refs s
  | touch key => exact .same (touch_sameGrants key s)
  | remove key => exact .same (remove_sameGrants hbudget key s)
  | resize size => exact h.elim

/-- The states that calls lead to, starting with a cache that has just been entered into a budget
without caches; what it has replaced before is within its threshold, as it is in a new one. -/
inductive Budgeted (host : Cache.Host σ) (budget? : σ → Option Budget) (cacheName : String)
    (size threshold limit : Nat) (factor : Float) : Hosted σ → Prop
  | start {c : Cache} (pool : Pool) (state : σ) (capacity : c.capacity = size)
    (threshold_eq : c.threshold = threshold) (few : c.replacements ≤ threshold)
    (entered : budget? state = some ((Budget.ofFactor limit factor).register cacheName size)) :
    Budgeted host budget? cacheName size threshold limit factor ⟨c, pool, state⟩
  | call {s : Hosted σ}
    (run : Budgeted host budget? cacheName size threshold limit factor s) (call : Call)
    (leavesSize : call.LeavesSize) :
    Budgeted host budget? cacheName size threshold limit factor (call.after host s)
  /-- Others may do what they like to the collections and to the surroundings, but not to the
  budget. -/
  | others {s : Hosted σ}
    (run : Budgeted host budget? cacheName size threshold limit factor s) (pool : Pool) (state : σ)
    (kept : budget? state = budget? s.host) :
    Budgeted host budget? cacheName size threshold limit factor ⟨s.cache, pool, state⟩

/-- All that calls lead to is within the grants. -/
theorem Budgeted.withinGrants (hbudget : host.KeepsBudget budget? cacheName)
    (h : Budgeted host budget? cacheName size threshold limit factor s) :
    WithinGrants budget? cacheName size threshold limit s := by
  -- Calls keep within the grants, and others leave the budget alone.
  induction h with
  | @start c pool state capacity threshold_eq few entered =>
    subst capacity
    refine ⟨⟨_, entered, ?_⟩, threshold_eq, few, Nat.le_refl _, Nat.le_max_left ..⟩
    exact Budget.holds_register limit factor cacheName c.capacity
  | call _ call leavesSize ih => exact ih.stepped hbudget (call.stepped hbudget _ leavesSize)
  | others _ pool state kept ih => exact ih.of_sameGrants ⟨rfl, rfl, rfl, kept⟩

/-- What is relied on in a call: no slots get lost, and when there are more, it is because a
collection has come in for a victim; the other residents stay where they are. -/
structure GrowsByReplacing (host : Cache.Host σ) (s : Hosted σ) (call : Call) : Prop where
  capacity_le : s.cache.capacity ≤ (call.after host s).cache.capacity
  replaced : (call.after host s).cache.capacity ≠ s.cache.capacity →
    ∃ place refs slot victim, call = .add place refs ∧
      add host place refs s = .ok (some victim) (call.after host s) ∧
      s.cache.resident? slot = some victim ∧
      ∃ n, (call.after host s).cache.slots =
        s.cache.slots.set slot (some place) ++ List.replicate n none

/-- Whatever was called but a resize: the budget knows how many slots there are, replacements
stay within the threshold, and the cache grows only by replacing, within the limit. -/
theorem Budgeted.grows_as_granted (hbudget : host.KeepsBudget budget? cacheName)
    (h : Budgeted host budget? cacheName size threshold limit factor s) :
    WithinGrants budget? cacheName size threshold limit s ∧
      ∀ call : Call, call.LeavesSize → GrowsByReplacing host s call := by
  have hwithin := h.withinGrants hbudget
  refine ⟨hwithin, fun call hcall => ?_⟩
  have hstep := call.stepped hbudget s hcall
  generalize hafter : call.after host s = t at hstep
  -- Either there are as many slots as before, or somebody came in for a victim.
  cases hstep with
  | same same =>
    constructor
    · rw [hafter]
      exact Nat.le_of_eq same.capacity.symm
    · rw [hafter]
      exact fun hne => absurd same.capacity hne
  | @replaced place victim refs slot _ u answers replaced budget grown =>
    -- What is granted stands behind the slots that were there.
    obtain ⟨n, hslots⟩ := grown.exists_slots
    rw [replaced.slots] at hslots
    constructor
    · rw [hafter, Cache.capacity, Cache.capacity, hslots, List.length_append, List.length_set]
      exact Nat.le_add_right _ _
    · rw [hafter]
      exact fun _ => ⟨place, refs, slot, victim, rfl, answers, replaced.resident, n, hslots⟩

/-! ## A catalog with room for one slot more -/

/-- A catalog of two slots in a budget of three, before anything comes in. -/
def roomyStart : Catalog (Option Budget) :=
  ⟨.ofSize 2 0, fourCollections,
    (Catalog.ofStore default 2 0 (some (.ofFactor 3 1.25))).host⟩

/-- Both slots are taken. -/
def roomy : Catalog (Option Budget) :=
  Call.after Catalog.hosting (Call.after Catalog.hosting roomyStart (.add 0 1)) (.add 1 1)

/-- Two collections in two slots are within a budget of three. -/
theorem budgeted_roomy :
    Budgeted Catalog.hosting Catalog.Ground.source Catalog.cacheName 2 0 3 1.25 roomy :=
  .call (.call (.start (c := roomyStart.cache) fourCollections roomyStart.host rfl rfl
    (Nat.zero_le 0) rfl)
    (.add 0 1) trivial) (.add 1 1) trivial

/-- The third collection comes in for the first one, and the budget has a slot for it. -/
theorem exists_add_roomy :
    ∃ t, add Catalog.hosting 3 1 roomy = .ok (some 0) t ∧ 2 < t.cache.capacity := by
  have hbudget := Catalog.hosting_keepsBudget
  obtain ⟨u, hroom, hhost⟩ : ∃ u, makeRoom Catalog.hosting
      ((roomy.withCounts 3 0).withUse 3 1 3) = .ok (0, some 0) u ∧ u.host = roomyStart.host :=
    ⟨_, rfl, rfl⟩
  obtain ⟨v, t, hadd, hreplaced, hasked, hgrown⟩ :=
    exists_replaced hbudget.neverShrinks
      (show roomy.cache.get? (roomy.pool.get 3).key = none from rfl) rfl hroom
  have hcapacity : v.cache.capacity = 2 := hreplaced.capacity
  have hregistered :
      v.host.source = some ((Budget.ofFactor 3 1.25).register "collections" 2) := by
    rw [hasked, hhost]
    rfl
  -- How far the factor goes is not known here, but one slot more is granted in any case.
  refine ⟨t, hadd, hcapacity ▸ hgrown.lt_capacity hbudget ?_ hregistered ?_⟩
  · rw [hreplaced.replacements, hreplaced.threshold]
    decide
  · rw [hcapacity]
    decide

/-- The third collection is in the slot of the first one, the second one is where it was, and the
budget has on record that there are three slots. -/
theorem grows_as_granted_roomy :
    Budgeted Catalog.hosting Catalog.Ground.source Catalog.cacheName 2 0 3 1.25 roomy ∧
      ∃ t, add Catalog.hosting 3 1 roomy = .ok (some 0) t ∧ t.cache.capacity = 3 ∧
        (∃ b, t.host.source = some b ∧ b.sizeOf? Catalog.cacheName = some 3) ∧
        ∃ n, t.cache.slots = [some 3, some 1] ++ List.replicate n none := by
  have hbudget := Catalog.hosting_keepsBudget
  obtain ⟨t, hadd, hmore⟩ := exists_add_roomy
  have hafter : Call.after Catalog.hosting roomy (.add 3 1) = t := congrArg Action.stateOf hadd
  -- The state before says how the cache has grown, and the one after that nothing was lost.
  obtain ⟨_, hgrows⟩ := budgeted_roomy.grows_as_granted hbudget
  have hgrown := (hgrows (.add 3 1) trivial).replaced
  rw [hafter] at hgrown
  obtain ⟨_, _, slot, victim, hcall, hanswer, hresident, n, hslots⟩ := hgrown (Nat.ne_of_gt hmore)
  obtain ⟨rfl, rfl⟩ := Call.add.inj hcall
  rw [hadd] at hanswer
  obtain rfl := Option.some.inj (EStateM.Result.ok.inj hanswer).1
  -- Of the two slots, the first is the victim's.
  have hslot : slot = 0 := by
    have hlt : slot < 2 := Cache.lt_capacity hresident
    obtain rfl | rfl : slot = 0 ∨ slot = 1 := by omega
    · rfl
    · cases hresident
  subst hslot
  obtain ⟨hwithin, _⟩ := (budgeted_roomy.call (.add 3 1) trivial).grows_as_granted hbudget
  rw [hafter] at hwithin
  have hcapacity : t.cache.capacity = 3 := Nat.le_antisymm hwithin.capacity_le hmore
  obtain ⟨b, hb, hholds⟩ := hwithin.exists_budget
  rw [hcapacity] at hholds
  exact ⟨budgeted_roomy, t, hadd, hcapacity, ⟨b, hb, hholds.sizeOf?⟩, n, hslots⟩

end Hosted

end XmlIndex
