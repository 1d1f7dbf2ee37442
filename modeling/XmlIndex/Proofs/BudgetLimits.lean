import Mathlib.Data.List.Induction
import XmlIndex.Collection.Budget
import XmlIndex.Proofs.MapLaws

/-! # Limits of slot budgets

Whatever the factor makes of a size, a budget grants at most what the other caches leave of its
limit (`Budget.exists_request`).  So a grant leaves the slots of all caches together within the
limit, also where a cache was entered with more than there was room for.  A cache is refused only
if there is no room for one more slot, and then nothing has happened.

The slots of all caches get beyond the limit only by entering a cache
(`Budget.grants_stay_within`). -/

namespace XmlIndex

namespace Budget

variable {b : Budget} {cache other : String} {size current : Nat}

/-! ## The slots of several caches -/

/-- Entering a cache counts its slots in place of those it had. -/
theorem total_insert (sizes : SortedMap String Nat) (cache : String) (size : Nat) :
    total (sizes.insert cache size) = total (sizes.erase cache) + size := by
  have hvalues : (sizes.insert cache size).values.Perm (size :: (sizes.erase cache).values) :=
    (sizes.entries_insert_perm cache size).map Prod.snd
  rw [total, total, ← List.sum_eq_foldl, ← List.sum_eq_foldl, hvalues.sum_nat, List.sum_cons,
    Nat.add_comm]

/-- The slots of the other caches. -/
def others (b : Budget) (cache : String) : Nat := total (b.sizes.erase cache)

/-- All slots are those of the others and its own. -/
theorem allocated_register (b : Budget) (cache : String) (size : Nat) :
    (b.register cache size).allocated = b.others cache + size :=
  total_insert b.sizes cache size

/-- Entering a cache changes the size of no other. -/
theorem sizeOf?_register (b : Budget) (cache other : String) (size : Nat) :
    (b.register cache size).sizeOf? other = if other = cache then some size else b.sizeOf? other :=
  b.sizes.get?_insert_eq cache other size

/-! ## Asking for slots -/

/-- A cache is granted more slots than it has and no more than there is room for, or else there is
no room for one more slot. -/
theorem exists_request (b : Budget) (cache : String) (current : Nat) :
    (∃ size, b.request cache current = (some size, b.register cache size) ∧
      current < size ∧ b.others cache + size ≤ b.limit) ∨
    b.request cache current = (none, b) ∧ b.limit ≤ b.others cache + current := by
  rw [request, ← others]
  split
  · next hfull => exact .inr ⟨rfl, by omega⟩
  · next hmore => exact .inl ⟨_, rfl, by omega, by omega⟩

/-- What is relied on when a cache of `current` slots asks a budget with this limit for more: it
gets more than it has, and together with the other caches it stays within the limit; its new size
is recorded, and nobody else's changes.  It is granted something if there is room for one slot
more, and otherwise nothing has happened. -/
structure GrantsWithin (limit : Nat) (b : Budget) (cache : String) (current : Nat) : Prop where
  granted : ∀ size b', b.request cache current = (some size, b') →
    current < size ∧ b'.allocated ≤ limit ∧
      ∀ other, b'.sizeOf? other = if other = cache then some size else b.sizeOf? other
  refused : ∀ b', b.request cache current = (none, b') → b' = b
  isSome_iff : (b.request cache current).1.isSome ↔ b.others cache + current < limit

/-- Every grant is within the limit. -/
theorem grantsWithin (b : Budget) (cache : String) (current : Nat) :
    b.GrantsWithin b.limit cache current := by
  -- Something is granted, or there is no room for one more slot.
  rcases b.exists_request cache current with ⟨size, hrequest, hmore, hroom⟩ | ⟨hrequest, hfull⟩
  · rw [← allocated_register] at hroom
    constructor
    · intro size' b' hanswer
      rw [hrequest] at hanswer
      cases hanswer
      exact ⟨hmore, hroom, fun other => b.sizeOf?_register cache other size⟩
    · intro b' hanswer
      rw [hrequest] at hanswer
      cases hanswer
    · rw [allocated_register] at hroom
      rw [hrequest]
      exact iff_of_true rfl (by omega)
  -- Nothing is granted.
  · constructor
    · intro size' b' hanswer
      rw [hrequest] at hanswer
      cases hanswer
    · intro b' hanswer
      rw [hrequest] at hanswer
      cases hanswer
      rfl
    · rw [hrequest]
      exact iff_of_false Bool.false_ne_true (by omega)

/-! ## Many caches, in any order -/

/-- A call to a budget. -/
inductive Call where
  | register (cache : String) (size : Nat)
  | request (cache : String) (current : Nat)

/-- The budget after a call. -/
def call (b : Budget) : Call → Budget
  | .register cache size => b.register cache size
  | .request cache current => (b.request cache current).2

/-- The budget after several calls, in order. -/
def after (b : Budget) (calls : List Call) : Budget := calls.foldl call b

/-- The last call is made on what the earlier ones left. -/
theorem after_append_singleton (b : Budget) (calls : List Call) (c : Call) :
    b.after (calls ++ [c]) = (b.after calls).call c := by
  rw [after, List.foldl_append]
  rfl

/-- No call changes the limit. -/
theorem limit_call (b : Budget) (c : Call) : (b.call c).limit = b.limit := by
  cases c with
  | register cache size => rfl
  | request cache current =>
    rcases b.exists_request cache current with ⟨size, hrequest, _⟩ | ⟨hrequest, _⟩
    · rw [call, hrequest]
      rfl
    · rw [call, hrequest]

/-- No calls change the limit. -/
theorem limit_after (b : Budget) (calls : List Call) : (b.after calls).limit = b.limit := by
  induction calls generalizing b with
  | nil => rfl
  | cons c calls ih => exact (ih (b.call c)).trans (b.limit_call c)

/-- Asking for slots takes nobody beyond the limit. -/
theorem allocated_call_request_le {limit : Nat} (hlimit : b.limit = limit)
    (h : b.allocated ≤ limit) (cache : String) (current : Nat) :
    (b.call (.request cache current)).allocated ≤ limit := by
  rcases b.exists_request cache current with ⟨size, hrequest, _, hroom⟩ | ⟨hrequest, _⟩
  · rw [call, hrequest, allocated_register, ← hlimit]
    exact hroom
  · rw [call, hrequest]
    exact h

/-- Whatever was called before, in any order and by any number of caches, every grant stays within
the limit; so if entering a cache always does, the slots of all caches do after every call. -/
theorem grants_stay_within (limit : Nat) (factor : Float) (calls : List Call) :
    (∀ cache current, ((ofFactor limit factor).after calls).GrantsWithin limit cache current) ∧
    ((∀ before cache size, before ++ [.register cache size] <+: calls →
        ((ofFactor limit factor).after (before ++ [.register cache size])).allocated ≤ limit) →
      ∀ before, before <+: calls → ((ofFactor limit factor).after before).allocated ≤ limit) := by
  have hlimit : ∀ calls, ((ofFactor limit factor).after calls).limit = limit :=
    (ofFactor limit factor).limit_after
  constructor
  · intro cache current
    have hgrants := ((ofFactor limit factor).after calls).grantsWithin cache current
    rwa [hlimit] at hgrants
  · intro hregister before
    -- Induction on the calls from their end: the last one enters a cache or is a request.
    induction before using List.reverseRecOn with
    | nil => exact fun _ => Nat.zero_le limit
    | append_singleton before c ih =>
      intro hprefix
      have hbefore := ih ((List.prefix_append before [c]).trans hprefix)
      cases c with
      | register cache size => exact hregister before cache size hprefix
      | request cache current =>
        rw [after_append_singleton]
        exact allocated_call_request_le (hlimit before) hbefore cache current

/-! ## Two caches -/

/-- Two caches are entered into a budget, and one of them asks for more slots. -/
def twoCaches : List Call :=
  [.register "pages" 15, .register "collections" 4, .request "collections" 4]

/-- The last slot is granted, and as entering the caches takes nobody beyond the limit, nothing
does. -/
theorem grants_stay_within_twoCaches :
    (((ofFactor 20 1.25).after (twoCaches.take 2)).request "collections" 4).1.isSome ∧
      ((ofFactor 20 1.25).after twoCaches).allocated ≤ 20 := by
  constructor
  · have hgrants := (grants_stay_within 20 1.25 (twoCaches.take 2)).1 "collections" 4
    exact hgrants.isSome_iff.mpr (by decide)
  · refine (grants_stay_within 20 1.25 twoCaches).2 ?_ _ List.prefix_rfl
    intro before cache size hprefix
    rw [twoCaches] at hprefix
    -- The two caches are entered by the first two calls.
    match before with
    | [] =>
      obtain ⟨rfl, rfl⟩ : cache = "pages" ∧ size = 15 := by simpa using hprefix
      decide
    | [first] =>
      obtain ⟨rfl, rfl, rfl⟩ :
          first = .register "pages" 15 ∧ cache = "collections" ∧ size = 4 := by
        simpa using hprefix
      decide
    | _ :: _ :: before => cases before <;> simp at hprefix

end Budget

end XmlIndex
