import XmlIndex.Store.Snapshot
import XmlIndex.Proofs.StoreCalls

/-! # Changes of a store

A change is a call after which a store may hold something else (`Store.Change`).  What one does
is said once, by `Change.run_cases`: if the store permits it the outcome is `Change.effect`, and
otherwise the change fails and the store is as before.

On values an effect is a change of a plain map from keys to values (`Change.value?_effect`). -/

namespace XmlIndex

/-! ## Plain maps -/

/-- What value a key has, if it has one. -/
abbrev ValueMap := Bytes → Option Bytes

namespace ValueMap

/-- No key has a value. -/
def empty : ValueMap := fun _ => none

/-- The map with a value under a key in place of what was there. -/
def put (m : ValueMap) (key value : Bytes) : ValueMap := fun key' =>
  if key' = key then some value else m key'

/-- The map without the selected keys. -/
def without (m : ValueMap) (selected : Bytes → Bool) : ValueMap := fun key =>
  if selected key then none else m key

/-- The map of these pairs; of pairs with one key the last counts. -/
def ofPairs (pairs : List (Bytes × Bytes)) : ValueMap :=
  pairs.foldl (fun m p => m.put p.1 p.2) empty

end ValueMap

namespace Store

variable {s t u : Store} {held : LockMode} {call : StoreCall} {key : Bytes}

/-- The address of the value under a key. -/
def address? (s : Store) (key : Bytes) : Option Nat := (s.entries.get? key).map (·.address)

/-- Planning failures changes no address. -/
theorem SameUpToPlan.address? (h : t.SameUpToPlan s) (key : Bytes) :
    t.address? key = s.address? key := by
  rw [Store.address?, h.entries, Store.address?]

/-! ## Permission -/

/-- A call that changes the store goes through: its caller holds the lock for writing, the store
is not read-only, and the call is not planned to fail. -/
structure Permits (s : Store) (call : StoreCall) (held : LockMode) : Prop where
  unplanned : s.planned call ≠ 1
  held : held = .write
  writable : s.readOnly = false

/-- A call that is not planned to fail begins. -/
theorem exists_enter (h : s.planned call ≠ 1) :
    ∃ s', enter call s = .ok () s' ∧ s'.SameUpToPlan s := by
  have hok : ∃ s', enter call s = .ok () s' := by
    rw [enter]
    split
    · exact ⟨_, rfl⟩
    · next hplanned => exact absurd hplanned h
    · exact ⟨_, rfl⟩
  obtain ⟨s', he⟩ := hok
  exact ⟨s', he, enter_eq_ok he⟩

/-- A change begins exactly if it is permitted. -/
theorem enterChange_cases (s : Store) (call : StoreCall) (held : LockMode) :
    (s.Permits call held ∧ ∃ s', enterChange call held s = .ok () s' ∧ s'.SameUpToPlan s) ∨
      (¬ s.Permits call held ∧
        ∃ e s', enterChange call held s = .error e s' ∧ s'.SameUpToPlan s) := by
  -- The planned failure comes first, then the lock, and then whether the store may be written.
  by_cases hplanned : s.planned call = 1
  · refine .inr ⟨fun h => h.unplanned hplanned, .injected call.name, s.setPlan call 0, ?_, ?_⟩
    · refine Action.bind_of_error ?_
      rw [enter, hplanned]
    · exact ⟨rfl, fun hcalm => absurd hplanned (by rw [hcalm call]; decide)⟩
  · obtain ⟨s₁, he, hs⟩ := exists_enter hplanned
    cases held with
    | read =>
      refine .inr ⟨fun h => (by cases h.held), .writeLockNeeded call, s₁, ?_, hs⟩
      exact Action.bind_eq_error_iff.mpr (.inr ⟨(), s₁, he, rfl⟩)
    | write =>
      cases hr : s.readOnly with
      | true =>
        -- With the lock held, the read-only flag is what can still refuse.
        refine .inr ⟨fun h => ?_, .storeReadOnly call s₁.name, s₁, ?_, hs⟩
        · rw [h.writable] at hr
          cases hr
        · refine Action.bind_eq_error_iff.mpr (.inr ⟨(), s₁, he, ?_⟩)
          refine Action.bind_eq_error_iff.mpr (.inr ⟨s₁, s₁, rfl, ?_⟩)
          rw [hs.readOnly, hr]
          rfl
      | false =>
        refine .inl ⟨⟨hplanned, rfl, hr⟩, s₁, ?_, hs⟩
        refine Action.bind_eq_ok_iff.mpr ⟨(), s₁, he, ?_⟩
        refine Action.bind_eq_ok_iff.mpr ⟨s₁, s₁, rfl, ?_⟩
        rw [hs.readOnly, hr]
        rfl

/-! ## Changes -/

/-- A call after which the store may hold something else. -/
inductive Change where
  | put (key value : Bytes)
  | update (address : Nat) (key value : Bytes)
  | append (key fragment : Bytes)
  | remove (key : Bytes)
  | removeAll (range : KeyRange)
  | load (path : String) (file : Option Bytes)
  | setReadOnly (on : Bool)

namespace Change

/-- Makes the change; the answer is the address of the value that was written, if one was. -/
def run (held : LockMode) : Change → Action Store (Option Nat)
  | put key value => do
    let address ← Store.put held key value
    return some address
  | update address key value => do
    let address ← Store.update held address key value
    return some address
  | append key fragment => do
    let address ← Store.append held key fragment
    return some address
  | remove key => do
    let _ ← Store.remove held key
    return none
  | removeAll range => do
    let _ ← Store.removeAll held range
    return none
  | load path file => do
    Store.load path file
    return none
  | setReadOnly on => do
    modify fun s => { s with readOnly := on }
    return none

/-- The pairs that are loaded from a file, if it is there and can be read. -/
def loaded? (path : String) : Option Bytes → Option (List (Bytes × Bytes))
  | none => none
  | some file => (Snapshot.decode path file).toOption

/-- The change goes through.  An update has to name the address of the value, and what is loaded
has to be a file that can be read. -/
def Allowed (held : LockMode) (s : Store) : Change → Prop
  | put _ _ => s.Permits .put held
  | update address key _ => s.Permits .update held ∧ s.address? key = some address
  | append _ _ => s.Permits .append held
  | remove _ => s.Permits .remove held
  | removeAll _ => s.Permits .removeAll held
  | load path file => (loaded? path file).isSome
  | setReadOnly _ => True

/-- What the store is after a change that goes through. -/
def effect (s : Store) : Change → Store
  | put key value => s.place key value
  | update address key value => s.updated address key value
  | append key fragment => s.appended key fragment
  | remove key => { s with entries := s.entries.erase key }
  | removeAll range => s.without range
  | load path file =>
    match loaded? path file with
    | some pairs => s.refill pairs
    | none => s
  | setReadOnly on => { s with readOnly := on }

/-- The key that the change writes a value under. -/
def written? : Change → Option Bytes
  | put key _ | update _ key _ | append key _ => some key
  | remove _ | removeAll _ | load _ _ | setReadOnly _ => none

/-- What the change does to the map of values. -/
def onMap (m : ValueMap) : Change → ValueMap
  | put key value | update _ key value => m.put key value
  | append key fragment => m.put key ((m key).getD [] ++ fragment)
  | remove key => m.without (key == ·)
  | removeAll range => m.without range.matches?
  | load path file =>
    match loaded? path file with
    | some pairs => .ofPairs pairs
    | none => m
  | setReadOnly _ => m

/-- The change ends the life of the value that the key had: it puts another one in its place,
removes the key, or loads a file. -/
def Supersedes (key : Bytes) : Change → Prop
  | put key' _ | remove key' => key' = key
  | removeAll range => range.matches? key
  | load _ _ => True
  | update _ _ _ | append _ _ | setReadOnly _ => False

/-- How many addresses the change can give out. -/
def allots : Change → Nat
  | put _ _ | append _ _ => 1
  | load path file => ((loaded? path file).getD []).length
  | update _ _ _ | remove _ | removeAll _ | setReadOnly _ => 0

end Change

/-! ## What a change does -/

/-- A value that is placed has the next address. -/
theorem address?_place (s : Store) (key value key' : Bytes) :
    (s.place key value).address? key' =
      if key' = key then some s.nextAddress else s.address? key' := by
  simp only [address?, place, SortedMap.get?_insert_eq]
  split <;> rfl

/-- A value that is updated stays where it is. -/
theorem address?_updated {address : Nat} (h : s.address? key = some address) (value key' : Bytes) :
    (s.updated address key value).address? key' = s.address? key' := by
  simp only [address?, updated, SortedMap.get?_insert_eq] at h ⊢
  split
  · next heq => rw [heq, h, Option.map_some]
  · rfl

/-- Bytes are added by an update, or placed if there is no value yet. -/
theorem appended_cases (s : Store) (key fragment : Bytes) :
    (∃ slot, s.entries.get? key = some slot ∧ s.address? key = some slot.address ∧
      s.appended key fragment = s.updated slot.address key (slot.data ++ fragment)) ∨
    (s.entries.get? key = none ∧ s.address? key = none ∧
      s.appended key fragment = s.place key fragment) := by
  rw [appended, address?]
  cases s.entries.get? key with
  | none => exact .inr ⟨rfl, rfl, rfl⟩
  | some slot => exact .inl ⟨slot, rfl, rfl, rfl⟩

/-- An append that has begun answers where the value is. -/
theorem append_of_enter {s' : Store} (he : enterChange .append held s = .ok () s')
    (fragment : Bytes) :
    ∃ address, Store.append held key fragment s = .ok address (s'.appended key fragment) ∧
      (s'.appended key fragment).address? key = some address := by
  -- The key has a value, which stays where it is, or it gets one.
  rcases appended_cases s' key fragment with ⟨slot, hslot, haddress, heq⟩ | ⟨hnone, -, heq⟩
  · refine ⟨slot.address, ?_, by rw [heq, address?_updated haddress, haddress]⟩
    refine Action.bind_eq_ok_iff.mpr ⟨(), s', he, ?_⟩
    refine Action.bind_eq_ok_iff.mpr ⟨s', s', rfl, ?_⟩
    simp only [hslot, heq]
    rfl
  · refine ⟨s'.nextAddress, ?_, by rw [heq, address?_place, if_pos rfl]⟩
    refine Action.bind_eq_ok_iff.mpr ⟨(), s', he, ?_⟩
    refine Action.bind_eq_ok_iff.mpr ⟨s', s', rfl, ?_⟩
    simp only [hnone, heq]
    rfl

/-- An update goes through at the address of the value only. -/
theorem update_of_enter {s' : Store} (he : enterChange .update held s = .ok () s')
    (address : Nat) (value : Bytes) :
    (s'.address? key = some address ∧
      Store.update held address key value s = .ok address (s'.updated address key value)) ∨
    (s'.address? key ≠ some address ∧
      ∃ e, Store.update held address key value s = .error e s') := by
  cases hslot : s'.entries.get? key with
  | none =>
    refine .inr ⟨by simp [address?, hslot], .updateMissing, ?_⟩
    refine Action.bind_eq_error_iff.mpr (.inr ⟨(), s', he, ?_⟩)
    refine Action.bind_eq_error_iff.mpr (.inr ⟨s', s', rfl, ?_⟩)
    simp only [hslot]
    rfl
  | some slot =>
    -- The address that is named has to be that of the value.
    by_cases ha : slot.address = address
    · refine .inl ⟨by simp [address?, hslot, ha], ?_⟩
      refine Action.bind_eq_ok_iff.mpr ⟨(), s', he, ?_⟩
      refine Action.bind_eq_ok_iff.mpr ⟨s', s', rfl, ?_⟩
      simp only [hslot, ha, if_true]
      rfl
    · refine .inr ⟨by simp [address?, hslot, ha], .staleAddress address slot.address, ?_⟩
      refine Action.bind_eq_error_iff.mpr (.inr ⟨(), s', he, ?_⟩)
      refine Action.bind_eq_error_iff.mpr (.inr ⟨s', s', rfl, ?_⟩)
      simp only [hslot, ha, if_false]
      rfl

/-- A removal of a range is refused, or it removes the selected keys and answers their number. -/
theorem removeAll_cases (s : Store) (held : LockMode) (range : KeyRange) :
    (s.Permits .removeAll held ∧ ∃ t,
      removeAll held range s = .ok (range.scan s.entries.entries).length t ∧
      t.SameUpToPlan (s.without range)) ∨
    (¬ s.Permits .removeAll held ∧ ∃ e t, removeAll held range s = .error e t ∧
      t.SameUpToPlan s) := by
  rcases enterChange_cases s .removeAll held with ⟨hp, s', he, hs⟩ | ⟨hp, e, s', he, hs⟩
  · refine .inl ⟨hp, s'.without range, Action.bind_eq_ok_iff.mpr ⟨(), s', he, ?_⟩, hs.without range⟩
    rw [← List.length_map (·.1), ← hs.entries]
    rfl
  · exact .inr ⟨hp, e, s', Action.bind_of_error he, hs⟩

namespace Change

/-- A change goes through exactly if it is allowed; one that fails leaves the store alone. -/
theorem run_cases (held : LockMode) (c : Change) (s : Store) :
    (c.Allowed held s ∧ ∃ t, c.run held s = .ok (c.written?.bind (c.effect s).address?) t ∧
      t.SameUpToPlan (c.effect s)) ∨
    (¬ c.Allowed held s ∧ ∃ e t, c.run held s = .error e t ∧ t.SameUpToPlan s) := by
  -- Each change in turn; what it comes to depends on whether it may begin.
  cases c with
  | put key value =>
    rcases enterChange_cases s .put held with ⟨hp, s', he, hs⟩ | ⟨hp, e, s', he, hs⟩
    · have hput : Store.put held key value s = .ok s'.nextAddress (s'.place key value) :=
        Action.bind_eq_ok_iff.mpr ⟨(), s', he, rfl⟩
      refine .inl ⟨hp, s'.place key value, ?_, hs.place key value⟩
      refine Action.bind_eq_ok_iff.mpr ⟨_, _, hput, ?_⟩
      simp only [written?, effect, Option.bind_some, address?_place, if_true, hs.nextAddress]
      rfl
    · exact .inr ⟨hp, e, s', Action.bind_of_error (Action.bind_of_error he), hs⟩
  | update address key value =>
    rcases enterChange_cases s .update held with ⟨hp, s', he, hs⟩ | ⟨hp, e, s', he, hs⟩
    -- An update has a condition of its own, that the address is the present one.
    · rcases update_of_enter he address value with ⟨ha, hupdate⟩ | ⟨ha, e, hupdate⟩
      · rw [hs.address?] at ha
        refine .inl ⟨⟨hp, ha⟩, s'.updated address key value, ?_, hs.updated address key value⟩
        refine Action.bind_eq_ok_iff.mpr ⟨_, _, hupdate, ?_⟩
        simp only [written?, effect, Option.bind_some, address?_updated ha, ha]
        rfl
      · rw [hs.address?] at ha
        exact .inr ⟨fun h => ha h.2, e, s', Action.bind_of_error hupdate, hs⟩
    · exact .inr ⟨fun h => hp h.1, e, s', Action.bind_of_error (Action.bind_of_error he), hs⟩
  | append key fragment =>
    rcases enterChange_cases s .append held with ⟨hp, s', he, hs⟩ | ⟨hp, e, s', he, hs⟩
    · obtain ⟨address, happend, haddress⟩ := append_of_enter he fragment
      have hsame := hs.appended key fragment
      rw [hsame.address?] at haddress
      refine .inl ⟨hp, s'.appended key fragment, ?_, hsame⟩
      refine Action.bind_eq_ok_iff.mpr ⟨_, _, happend, ?_⟩
      simp only [written?, effect, Option.bind_some, haddress]
      rfl
    · exact .inr ⟨hp, e, s', Action.bind_of_error (Action.bind_of_error he), hs⟩
  | remove key =>
    rcases enterChange_cases s .remove held with ⟨hp, s', he, hs⟩ | ⟨hp, e, s', he, hs⟩
    · have hremove : Store.remove held key s = .ok (s'.entries.contains key)
          { s' with entries := s'.entries.erase key } :=
        Action.bind_eq_ok_iff.mpr ⟨(), s', he, rfl⟩
      refine .inl ⟨hp, _, Action.bind_eq_ok_iff.mpr ⟨_, _, hremove, rfl⟩, ?_⟩
      have hcalm := hs.calm
      rw [hs.eq] at hcalm ⊢
      exact ⟨rfl, hcalm⟩
    · exact .inr ⟨hp, e, s', Action.bind_of_error (Action.bind_of_error he), hs⟩
  | removeAll range =>
    rcases s.removeAll_cases held range with ⟨hp, t, hremove, hs⟩ | ⟨hp, e, t, hremove, hs⟩
    · exact .inl ⟨hp, t, Action.bind_eq_ok_iff.mpr ⟨_, t, hremove, rfl⟩, hs⟩
    · exact .inr ⟨hp, e, t, Action.bind_of_error hremove, hs⟩
  | load path file =>
    cases file with
    | none => exact .inr ⟨by simp [Allowed, loaded?], .fileMissing, s, rfl, .refl s⟩
    | some file =>
      -- Whether a load is allowed depends on the file alone.
      simp only [Allowed, effect, loaded?]
      cases hd : Snapshot.decode path file with
      | ok pairs =>
        refine .inl ⟨rfl, s.refill pairs, ?_, .refl _⟩
        refine Action.bind_eq_ok_iff.mpr ⟨(), s.refill pairs, ?_, rfl⟩
        exact Action.bind_eq_ok_iff.mpr ⟨pairs, s, by rw [hd]; rfl, rfl⟩
      | error e =>
        refine .inr ⟨by simp [Except.toOption], e, s, ?_, .refl s⟩
        exact Action.bind_of_error (Action.bind_of_error (by rw [hd]; rfl))
  | setReadOnly on => exact .inl ⟨trivial, _, rfl, .refl _⟩

/-- A change goes through exactly if it is allowed. -/
theorem run_ok_iff {c : Change} :
    (∃ answer t, c.run held s = .ok answer t) ↔ c.Allowed held s := by
  rcases c.run_cases held s with ⟨hallowed, t, hrun, -⟩ | ⟨hallowed, e, t, hrun, -⟩
  · exact ⟨fun _ => hallowed, fun _ => ⟨_, t, hrun⟩⟩
  · refine ⟨?_, fun h => absurd h hallowed⟩
    rintro ⟨answer, t', h⟩
    rw [hrun] at h
    cases h

/-- A change that goes through has its effect. -/
theorem run_eq_ok {c : Change} {answer : Option Nat} (h : c.run held s = .ok answer t) :
    c.Allowed held s ∧ answer = c.written?.bind t.address? ∧ t.SameUpToPlan (c.effect s) := by
  rcases c.run_cases held s with ⟨hallowed, t', hrun, hsame⟩ | ⟨-, e, t', hrun, -⟩
  · obtain ⟨rfl, rfl⟩ := EStateM.Result.ok.inj (hrun.symm.trans h)
    refine ⟨hallowed, ?_, hsame⟩
    rw [show t'.address? = (c.effect s).address? from funext hsame.address?]
  · rw [hrun] at h
    cases h

/-- A change that fails has none. -/
theorem run_eq_error {c : Change} {e : Error} (h : c.run held s = .error e t) :
    t.SameUpToPlan s := by
  rcases c.run_cases held s with ⟨-, t', hrun, -⟩ | ⟨-, e', t', hrun, hsame⟩
  · rw [hrun] at h
    cases h
  · obtain ⟨-, rfl⟩ := EStateM.Result.error.inj (hrun.symm.trans h)
    exact hsame

end Change

/-! ## Values after a change -/

/-- Placing values one by one puts them into the map one by one. -/
theorem value?_foldl_place (pairs : List (Bytes × Bytes)) {m : ValueMap} (hm : s.value? = m) :
    (pairs.foldl (fun s p => s.place p.1 p.2) s).value? =
      pairs.foldl (fun m p => m.put p.1 p.2) m := by
  induction pairs generalizing s m with
  | nil => exact hm
  | cons p pairs ih => exact ih (by rw [← hm]; exact funext fun _ => value?_place s p.1 p.2 _)

/-- A loaded store has the values of the file only. -/
theorem value?_refill (s : Store) (pairs : List (Bytes × Bytes)) :
    (s.refill pairs).value? = ValueMap.ofPairs pairs :=
  value?_foldl_place pairs rfl

namespace Change

/-- On values a change is a change of a plain map. -/
theorem value?_effect (c : Change) (s : Store) : (c.effect s).value? = c.onMap s.value? := by
  cases c with
  | put key value => exact funext fun _ => value?_place s key value _
  | update address key value => exact funext fun _ => value?_updated s address key value _
  | append key fragment => exact funext fun _ => value?_appended s key fragment _
  | remove key =>
    refine funext fun key' => (value?_erase s key key').trans ?_
    simp only [onMap, ValueMap.without, beq_iff_eq]
  | removeAll range => exact funext fun _ => value?_without s range _
  | load path file =>
    simp only [effect, onMap]
    cases loaded? path file with
    | some pairs => exact value?_refill s pairs
    | none => rfl
  | setReadOnly on => rfl

end Change

end Store

end XmlIndex
