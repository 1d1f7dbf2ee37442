import XmlIndex.Store.Basic
import XmlIndex.Proofs.ActionSteps
import XmlIndex.Proofs.DocumentOrder
import XmlIndex.Proofs.MapLaws

/-! # What store calls do

For every call there is one lemma on its success and one on its failure.  A call that fails
leaves the store as it was, and a call that only reads does so always, except that a planned
failure has come nearer or is used up (`Store.SameUpToPlan`).  With the lock free, a store that
can be written and no failure planned (`Store.Open`), the calls do not fail.

What the other modules look at is the value under a key (`Store.value?`). -/

namespace XmlIndex

namespace Store

variable {s s' : Store} {e : Error} {key : Bytes}

/-- No call is planned to fail. -/
def Calm (s : Store) : Prop := ∀ call, s.planned call = 0

/-- The stores differ in their planned failures at most, and no failure was planned anew. -/
structure SameUpToPlan (s' s : Store) : Prop where
  eq : s' = { s with planned := s'.planned }
  calm : s.Calm → s'.Calm

namespace SameUpToPlan

/-- Every store is itself. -/
theorem refl (s : Store) : s.SameUpToPlan s := ⟨rfl, id⟩

/-- One step after the other, nothing but planned failures is used up. -/
theorem trans {s'' : Store} (h' : s''.SameUpToPlan s') (h : s'.SameUpToPlan s) :
    s''.SameUpToPlan s := by
  refine ⟨?_, fun hs => h'.calm (h.calm hs)⟩
  have h₁ := h.eq
  have h₂ := h'.eq
  rw [h₁] at h₂
  exact h₂

/-- The entries are not affected by what is planned. -/
theorem entries (h : s'.SameUpToPlan s) : s'.entries = s.entries := by rw [h.eq]

/-- The next address is not affected by what is planned. -/
theorem nextAddress (h : s'.SameUpToPlan s) : s'.nextAddress = s.nextAddress := by rw [h.eq]

/-- The name of the store is not affected by what is planned. -/
theorem name (h : s'.SameUpToPlan s) : s'.name = s.name := by rw [h.eq]

/-- Whether the store can be written is not affected by what is planned. -/
theorem readOnly (h : s'.SameUpToPlan s) : s'.readOnly = s.readOnly := by rw [h.eq]

/-- Who holds the lock is not affected by what is planned. -/
theorem isFree (h : s'.SameUpToPlan s) (mode : LockMode) : s'.isFree mode = s.isFree mode := by
  rw [h.eq]
  cases mode <;> rfl

end SameUpToPlan

/-- The stores have the same values at the same addresses; they may differ in who holds the
lock, in being read-only and in the planned failures. -/
structure SameContents (s' s : Store) : Prop where
  entries : s'.entries = s.entries
  nextAddress : s'.nextAddress = s.nextAddress
  name : s'.name = s.name
  timeout : s'.timeout = s.timeout
  backing : s'.backing = s.backing

/-- Every store has its own contents. -/
theorem SameContents.refl (s : Store) : s.SameContents s := ⟨rfl, rfl, rfl, rfl, rfl⟩

/-- Having the same contents is transitive. -/
theorem SameContents.trans {s'' : Store} (h' : s''.SameContents s') (h : s'.SameContents s) :
    s''.SameContents s :=
  ⟨h'.entries.trans h.entries, h'.nextAddress.trans h.nextAddress, h'.name.trans h.name,
    h'.timeout.trans h.timeout, h'.backing.trans h.backing⟩

/-- Having the same contents is symmetric. -/
theorem SameContents.symm (h : s'.SameContents s) : s.SameContents s' :=
  ⟨h.entries.symm, h.nextAddress.symm, h.name.symm, h.timeout.symm, h.backing.symm⟩

/-- Stores that differ in planned failures only have the same contents. -/
theorem SameUpToPlan.sameContents (h : s'.SameUpToPlan s) : s'.SameContents s := by
  rw [h.eq]
  exact ⟨rfl, rfl, rfl, rfl, rfl⟩

/-- A change of the store may be refused. -/
def Hindered (s : Store) : Prop := s.readOnly = true ∨ ¬ s.Calm

/-- What hinders changes later was there before, for no failure is planned anew. -/
theorem SameUpToPlan.hindered (h : s'.SameUpToPlan s) (hs : s'.Hindered) : s.Hindered := by
  rcases hs with hr | hcalm
  · exact .inl (h.readOnly.symm.trans hr)
  · exact .inr fun hc => hcalm (h.calm hc)

/-- The lock is free, the store can be written and no call is planned to fail. -/
structure Open (s : Store) : Prop where
  free : s.isFree .write = true
  writable : s.readOnly = false
  calm : s.Calm

/-- An open store stays open when planned failures come nearer. -/
theorem SameUpToPlan.open (h : s'.SameUpToPlan s) (ho : s.Open) : s'.Open :=
  ⟨(h.isFree .write).trans ho.free, h.readOnly.trans ho.writable, h.calm ho.calm⟩

/-- Nothing hinders changes of an open store. -/
theorem Open.not_hindered (h : s.Open) : ¬ s.Hindered := by
  rintro (hreadOnly | hplanned)
  · rw [h.writable] at hreadOnly
    cases hreadOnly
  · exact hplanned h.calm

/-- The value under a key. -/
def value? (s : Store) (key : Bytes) : Option Bytes := (s.entries.get? key).map (·.data)

/-- The value under a key is what its slot holds. -/
theorem value?_of_get? {slot : Slot} (h : s.entries.get? key = some slot) :
    s.value? key = some slot.data := by
  rw [value?, h, Option.map_some]

/-- Without a slot there is no value. -/
theorem value?_of_get?_eq_none (h : s.entries.get? key = none) : s.value? key = none := by
  rw [value?, h, Option.map_none]

/-- In a store without entries there is no value under any key. -/
theorem value?_of_empty (h : s.entries = .empty) (key : Bytes) : s.value? key = none := by
  apply value?_of_get?_eq_none
  rw [h, SortedMap.get?_empty]

/-- The values are not affected by what is planned. -/
theorem SameUpToPlan.value? (h : s'.SameUpToPlan s) (key : Bytes) :
    s'.value? key = s.value? key := by
  rw [Store.value?, h.entries, Store.value?]

/-- With the same contents there are the same values. -/
theorem SameContents.value? (h : s'.SameContents s) (key : Bytes) :
    s'.value? key = s.value? key := by
  rw [Store.value?, h.entries, Store.value?]

/-! ## Locks -/

/-- A lock that is free for writing is free for reading. -/
theorem isFree_read_of_write (h : s.isFree .write) : s.isFree .read :=
  (Bool.and_eq_true_iff.mp h).1

/-- A free lock is granted. -/
theorem requireFree_of_isFree {mode : LockMode} (h : s.isFree mode) :
    requireFree mode s = .ok () s := by
  refine Action.bind_eq_ok_iff.mpr ⟨s, s, rfl, ?_⟩
  simp only [h]
  rfl

/-- With the lock free, the body is all that is done. -/
theorem locked_of_isFree {α : Type} {mode : LockMode} (h : s.isFree mode)
    (body : Action Store α) : locked mode body s = body s := by
  show EStateM.bind (requireFree mode) (fun _ => body) s = body s
  rw [EStateM.bind, requireFree_of_isFree h]

/-- A locked call that succeeds found the lock free and its body succeeds. -/
theorem locked_eq_ok {α : Type} {mode : LockMode} {body : Action Store α} {a : α}
    (h : locked mode body s = .ok a s') : s.isFree mode ∧ body s = .ok a s' := by
  cases hf : s.isFree mode with
  | true => exact ⟨rfl, by rwa [locked_of_isFree hf] at h⟩
  | false =>
    obtain ⟨_, _, hr, _⟩ := Action.bind_eq_ok_iff.mp h
    obtain ⟨_, _, hg, hr⟩ := Action.bind_eq_ok_iff.mp hr
    obtain ⟨rfl, rfl⟩ := EStateM.Result.ok.inj hg
    simp only [hf] at hr
    cases hr

/-- Without the lock nothing is done. -/
theorem locked_of_not_isFree {α : Type} {mode : LockMode} (h : s.isFree mode = false)
    (body : Action Store α) :
    locked mode body s = .error (.lockUnavailable mode s.name s.timeout.toText) s := by
  refine Action.bind_eq_error_iff.mpr (.inl ?_)
  refine Action.bind_eq_error_iff.mpr (.inr ⟨s, s, rfl, ?_⟩)
  simp only [h]
  rfl

/-- A locked call fails because the lock is held, and then changes nothing, or because its body
fails. -/
theorem locked_eq_error {α : Type} {mode : LockMode} {body : Action Store α}
    (h : locked mode body s = .error e s') :
    (s.isFree mode = false ∧ s' = s) ∨ (s.isFree mode ∧ body s = .error e s') := by
  cases hf : s.isFree mode with
  | true => exact .inr ⟨rfl, by rwa [locked_of_isFree hf] at h⟩
  | false =>
    rw [locked_of_not_isFree hf] at h
    exact .inl ⟨rfl, (EStateM.Result.error.inj h).2.symm⟩

/-! ## The beginning of a call -/

/-- A call begins if no failure is planned for it. -/
theorem enter_of_planned {call : StoreCall} (h : s.planned call = 0) :
    enter call s = .ok () s := by
  rw [enter, h]

/-- When a call begins, its planned failure may come nearer. -/
theorem enter_eq_ok {call : StoreCall} (h : enter call s = .ok () s') : s'.SameUpToPlan s := by
  rw [enter] at h
  split at h
  · obtain ⟨_, rfl⟩ := EStateM.Result.ok.inj h
    exact .refl s
  · cases h
  -- A failure further off has come nearer by one call.
  · next hplanned =>
    obtain ⟨_, rfl⟩ := EStateM.Result.ok.inj h
    refine ⟨rfl, fun hcalm => ?_⟩
    rw [hcalm call] at hplanned
    cases hplanned

/-- A call fails at its beginning because that was planned. -/
theorem enter_cause {call : StoreCall} (h : enter call s = .error e s') :
    e = .injected call.name := by
  rw [enter] at h
  split at h
  · cases h
  · exact (EStateM.Result.error.inj h).1.symm
  · cases h

/-- A call that cannot begin uses up its planned failure. -/
theorem enter_eq_error {call : StoreCall} (h : enter call s = .error e s') :
    s'.SameUpToPlan s ∧ ¬ s.Calm := by
  rw [enter] at h
  split at h
  · cases h
  · next hplanned =>
    obtain ⟨_, rfl⟩ := EStateM.Result.error.inj h
    -- A calm store has no failure planned for this call.
    have hcalm : ¬ s.Calm := fun hcalm => by
      rw [hcalm call] at hplanned
      cases hplanned
    exact ⟨⟨rfl, fun h => absurd h hcalm⟩, hcalm⟩
  · cases h

/-- A change begins on a store that can be written. -/
theorem enterChange_eq_ok {call : StoreCall} (h : enterChange call .write s = .ok () s') :
    s'.SameUpToPlan s ∧ s.readOnly = false := by
  obtain ⟨_, s₁, he, h⟩ := Action.bind_eq_ok_iff.mp h
  have hsame := enter_eq_ok he
  obtain ⟨_, s₂, hg, h⟩ := Action.bind_eq_ok_iff.mp h
  obtain ⟨rfl, rfl⟩ := EStateM.Result.ok.inj hg
  -- The store is asked whether it is read-only after the planned failures were looked at.
  cases hr : s₁.readOnly with
  | true =>
    simp only [hr] at h
    cases h
  | false =>
    simp only [hr] at h
    obtain ⟨_, rfl⟩ := EStateM.Result.ok.inj h
    exact ⟨hsame, hsame.readOnly.symm.trans hr⟩

/-- A change is refused because that was planned or because the store is read-only. -/
theorem enterChange_refused {call : StoreCall} (h : enterChange call .write s = .error e s') :
    s'.SameUpToPlan s ∧ ((¬ s.Calm ∧ e = .injected call.name) ∨
      (s.readOnly = true ∧ e = .storeReadOnly call s.name)) := by
  -- First comes the planned failure, then the flag of the store.
  rcases Action.bind_eq_error_iff.mp h with h | ⟨_, s₁, he, h⟩
  · obtain ⟨hsame, hcalm⟩ := enter_eq_error h
    exact ⟨hsame, .inl ⟨hcalm, enter_cause h⟩⟩
  · have hsame := enter_eq_ok he
    rcases Action.bind_eq_error_iff.mp h with h | ⟨_, s₂, hg, h⟩
    · cases h
    · obtain ⟨rfl, rfl⟩ := EStateM.Result.ok.inj hg
      cases hr : s₁.readOnly with
      | true =>
        simp only [hr] at h
        obtain ⟨rfl, rfl⟩ := EStateM.Result.error.inj h
        exact ⟨hsame, .inr ⟨hsame.readOnly.symm.trans hr, by rw [hsame.name]⟩⟩
      | false =>
        simp only [hr] at h
        cases h

/-- A change that is refused leaves the store as it was, and something hindered it. -/
theorem enterChange_eq_error {call : StoreCall} (h : enterChange call .write s = .error e s') :
    s'.SameUpToPlan s ∧ s.Hindered := by
  obtain ⟨hsame, hcause⟩ := enterChange_refused h
  exact ⟨hsame, hcause.elim (fun hplanned => .inr hplanned.1) fun hread => .inl hread.1⟩

/-- A refused change says that it was planned to fail or that the store is read-only. -/
theorem enterChange_cause {call : StoreCall} (h : enterChange call .write s = .error e s') :
    e = .injected call.name ∨ ∃ name, e = .storeReadOnly call name := by
  obtain ⟨_, hcause⟩ := enterChange_refused h
  exact hcause.imp And.right fun hread => ⟨s.name, hread.2⟩

/-! ## Reading -/

section Answers

variable {α : Type} {call : StoreCall} {f : Store → α} {a : α}

/-- A read answers from the store that it leaves, which has the contents of the one before. -/
theorem answer_eq_ok (h : (do enter call; return f (← EStateM.get)) s = .ok a s') :
    a = f s' ∧ s'.SameUpToPlan s := by
  obtain ⟨_, s₁, he, h⟩ := Action.bind_eq_ok_iff.mp h
  obtain ⟨_, s₂, hg, h⟩ := Action.bind_eq_ok_iff.mp h
  obtain ⟨rfl, rfl⟩ := EStateM.Result.ok.inj hg
  obtain ⟨rfl, rfl⟩ := EStateM.Result.ok.inj h
  exact ⟨rfl, enter_eq_ok he⟩

/-- A read fails at its beginning or not at all. -/
theorem enter_of_answer_eq_error (h : (do enter call; return f (← EStateM.get)) s = .error e s') :
    enter call s = .error e s' := by
  rcases Action.bind_eq_error_iff.mp h with h | ⟨_, s₁, _, h⟩
  · exact h
  · cases h

end Answers

/-- A value is answered with its address if no failure is planned. -/
theorem get_of_planned (h : s.planned .get = 0) (key : Bytes) :
    get key s = .ok (s.entries.get? key) s :=
  Action.bind_eq_ok_iff.mpr ⟨(), s, enter_of_planned h, rfl⟩

/-- What is answered under a key is what the store holds there. -/
theorem get_eq_ok {slot? : Option Slot} (h : get key s = .ok slot? s') :
    slot? = s.entries.get? key ∧ s'.SameUpToPlan s := by
  obtain ⟨rfl, hsame⟩ := answer_eq_ok h
  exact ⟨by rw [hsame.entries], hsame⟩

/-- A look-up that fails changes nothing but the plan. -/
theorem get_eq_error (h : get key s = .error e s') : s'.SameUpToPlan s ∧ ¬ s.Calm :=
  enter_eq_error (enter_of_answer_eq_error h)

/-- A look-up fails only because that was planned. -/
theorem get_cause (h : get key s = .error e s') : e = .injected StoreCall.get.name :=
  enter_cause (enter_of_answer_eq_error h)

/-- The keys that are found are those of the scan, in its order. -/
theorem findKeys_eq_ok {range : KeyRange} {keys : List Bytes}
    (h : findKeys range s = .ok keys s') :
    keys = (range.scan s.entries.entries).map (·.1) ∧ s'.SameUpToPlan s := by
  obtain ⟨rfl, hsame⟩ := answer_eq_ok h
  exact ⟨by rw [hsame.entries], hsame⟩

/-- A search for keys that fails changes nothing but the plan. -/
theorem findKeys_eq_error {range : KeyRange} (h : findKeys range s = .error e s') :
    s'.SameUpToPlan s ∧ ¬ s.Calm :=
  enter_eq_error (enter_of_answer_eq_error h)

/-- A search for keys fails only because that was planned. -/
theorem findKeys_cause {range : KeyRange} (h : findKeys range s = .error e s') :
    e = .injected StoreCall.findKeys.name :=
  enter_cause (enter_of_answer_eq_error h)

/-- Keys and values of the scan are answered if no failure is planned. -/
theorem findEntries_of_planned (h : s.planned .findEntries = 0) (range : KeyRange) :
    findEntries range s =
      .ok ((range.scan s.entries.entries).map fun e => (e.1, e.2.data)) s :=
  Action.bind_eq_ok_iff.mpr ⟨(), s, enter_of_planned h, rfl⟩

/-! ## Changing -/

/-- The store with bytes added to the value under a key. -/
def appended (s : Store) (key fragment : Bytes) : Store :=
  match s.entries.get? key with
  | some slot => { s with entries := s.entries.insert key ⟨slot.address, slot.data ++ fragment⟩ }
  | none => s.place key fragment

/-- The store with the value at an address replaced. -/
def updated (s : Store) (address : Nat) (key value : Bytes) : Store :=
  { s with entries := s.entries.insert key ⟨address, value⟩ }

/-- Bytes may be added before or after a planned failure has come nearer. -/
theorem SameUpToPlan.appended (h : s'.SameUpToPlan s) (key fragment : Bytes) :
    (s'.appended key fragment).SameUpToPlan (s.appended key fragment) := by
  have hcalm := h.calm
  rw [h.eq] at hcalm ⊢
  rw [Store.appended, Store.appended]
  cases s.entries.get? key <;> exact ⟨rfl, hcalm⟩

/-- The same contents with the same new value are the same contents. -/
theorem SameContents.place (h : s'.SameContents s) (key value : Bytes) :
    (s'.place key value).SameContents (s.place key value) := by
  refine ⟨?_, ?_, h.name, h.timeout, h.backing⟩
  · rw [Store.place, Store.place, h.entries, h.nextAddress]
  · rw [Store.place, Store.place, h.nextAddress]

/-- The same contents with the same bytes added are the same contents. -/
theorem SameContents.appended (h : s'.SameContents s) (key fragment : Bytes) :
    (s'.appended key fragment).SameContents (s.appended key fragment) := by
  rw [Store.appended, Store.appended, ← h.entries]
  cases s'.entries.get? key with
  | none => exact h.place key fragment
  | some slot => exact ⟨rfl, h.nextAddress, h.name, h.timeout, h.backing⟩

/-- The store without the selected keys. -/
def without (s : Store) (range : KeyRange) : Store :=
  { s with
    entries := ((range.scan s.entries.entries).map (·.1)).foldl SortedMap.erase s.entries }

/-- A new value may come in before or after a planned failure has come nearer. -/
theorem SameUpToPlan.place (h : s'.SameUpToPlan s) (key value : Bytes) :
    (s'.place key value).SameUpToPlan (s.place key value) := by
  have hcalm := h.calm
  rw [h.eq] at hcalm ⊢
  exact ⟨rfl, hcalm⟩

/-- A value may be replaced before or after a planned failure has come nearer. -/
theorem SameUpToPlan.updated (h : s'.SameUpToPlan s) (address : Nat) (key value : Bytes) :
    (s'.updated address key value).SameUpToPlan (s.updated address key value) := by
  have hcalm := h.calm
  rw [h.eq] at hcalm ⊢
  exact ⟨rfl, hcalm⟩

/-- Keys may be removed before or after a planned failure has come nearer. -/
theorem SameUpToPlan.without (h : s'.SameUpToPlan s) (range : KeyRange) :
    (s'.without range).SameUpToPlan (s.without range) := by
  have hcalm := h.calm
  rw [h.eq] at hcalm ⊢
  exact ⟨rfl, hcalm⟩

/-- A new value is found under its key, and all others stay. -/
theorem value?_place (s : Store) (key value key' : Bytes) :
    (s.place key value).value? key' = if key' = key then some value else s.value? key' := by
  simp only [value?, place, SortedMap.get?_insert_eq]
  split <;> rfl

/-- A replaced value is found under its key, and all others stay. -/
theorem value?_updated (s : Store) (address : Nat) (key value key' : Bytes) :
    (s.updated address key value).value? key' =
      if key' = key then some value else s.value? key' := by
  simp only [value?, updated, SortedMap.get?_insert_eq]
  split <;> rfl

/-- Bytes come behind the value under their key, and all other values stay. -/
theorem value?_appended (s : Store) (key fragment key' : Bytes) :
    (s.appended key fragment).value? key' =
      if key' = key then some ((s.value? key).getD [] ++ fragment) else s.value? key' := by
  rw [appended]
  -- Without a value the bytes are added to nothing.
  cases hs : s.entries.get? key with
  | none =>
    have hnone : s.value? key = none := value?_of_get?_eq_none hs
    simp only [value?_place, hnone, Option.getD_none, List.nil_append]
  | some slot =>
    have hsome : s.value? key = some slot.data := value?_of_get? hs
    rw [hsome]
    simp only [value?, SortedMap.get?_insert_eq]
    split <;> rfl

/-- A put that succeeds has placed the value. -/
theorem put_eq_ok {value : Bytes} {address : Nat} (h : put .write key value s = .ok address s') :
    s'.SameUpToPlan (s.place key value) := by
  obtain ⟨_, s₁, he, h⟩ := Action.bind_eq_ok_iff.mp h
  obtain ⟨_, rfl⟩ := EStateM.Result.ok.inj h
  exact (enterChange_eq_ok he).1.place key value

/-- A put that fails changes nothing but the plan. -/
theorem put_eq_error {value : Bytes} (h : put .write key value s = .error e s') :
    s'.SameUpToPlan s ∧ s.Hindered := by
  rcases Action.bind_eq_error_iff.mp h with h | ⟨_, s₁, _, h⟩
  · exact enterChange_eq_error h
  · cases h

/-- An append that succeeds has added its bytes to the value. -/
theorem append_eq_ok {fragment : Bytes} {address : Nat}
    (h : append .write key fragment s = .ok address s') :
    s'.SameUpToPlan (s.appended key fragment) ∧ s.readOnly = false := by
  obtain ⟨_, s₁, he, h⟩ := Action.bind_eq_ok_iff.mp h
  obtain ⟨hsame, hw⟩ := enterChange_eq_ok he
  obtain ⟨_, s₂, hg, h⟩ := Action.bind_eq_ok_iff.mp h
  obtain ⟨rfl, rfl⟩ := EStateM.Result.ok.inj hg
  refine ⟨?_, hw⟩
  have happended := hsame.appended key fragment
  rw [appended] at happended
  -- Without a value the bytes become one at a fresh address.
  cases hs : s₁.entries.get? key with
  | none =>
    simp only [hs] at h happended
    obtain ⟨_, rfl⟩ := EStateM.Result.ok.inj h
    exact happended
  | some slot =>
    simp only [hs] at h happended
    obtain ⟨_, _, hset, h⟩ := Action.bind_eq_ok_iff.mp h
    obtain ⟨_, rfl⟩ := EStateM.Result.ok.inj hset
    obtain ⟨_, rfl⟩ := EStateM.Result.ok.inj h
    exact happended

/-- An append that fails changes nothing but the plan. -/
theorem append_eq_error {fragment : Bytes} (h : append .write key fragment s = .error e s') :
    s'.SameUpToPlan s ∧ s.Hindered := by
  rcases Action.bind_eq_error_iff.mp h with h | ⟨_, s₁, _, h⟩
  · exact enterChange_eq_error h
  · obtain h | ⟨_, s₂, hg, h⟩ := Action.bind_eq_error_iff.mp h
    · cases h
    · obtain ⟨rfl, rfl⟩ := EStateM.Result.ok.inj hg
      cases hs : s₁.entries.get? key <;> simp only [hs] at h <;> cases h

/-- An update that succeeds has replaced the value at that address. -/
theorem update_eq_ok {value : Bytes} {address address' : Nat}
    (h : update .write address key value s = .ok address' s') :
    s'.SameUpToPlan (s.updated address key value) ∧ s.readOnly = false := by
  obtain ⟨_, s₁, he, h⟩ := Action.bind_eq_ok_iff.mp h
  obtain ⟨hsame, hwritable⟩ := enterChange_eq_ok he
  obtain ⟨_, s₂, hg, h⟩ := Action.bind_eq_ok_iff.mp h
  obtain ⟨rfl, rfl⟩ := EStateM.Result.ok.inj hg
  -- Without a value there is nothing to update.
  cases hs : s₁.entries.get? key with
  | none =>
    simp only [hs] at h
    cases h
  | some slot =>
    -- At another address than that of the value the update is refused.
    by_cases ha : slot.address = address
    · simp only [hs, ha, if_true] at h
      obtain ⟨_, _, hset, h⟩ := Action.bind_eq_ok_iff.mp h
      obtain ⟨_, rfl⟩ := EStateM.Result.ok.inj hset
      obtain ⟨_, rfl⟩ := EStateM.Result.ok.inj h
      exact ⟨hsame.updated address key value, hwritable⟩
    · simp only [hs, ha, if_false] at h
      cases h

/-- An update at the address of the value is refused only like any other change. -/
theorem update_refused {value : Bytes} {slot : Slot} (hslot : s.entries.get? key = some slot)
    (h : update .write slot.address key value s = .error e s') :
    s'.SameUpToPlan s ∧ ((¬ s.Calm ∧ e = .injected StoreCall.update.name) ∨
      (s.readOnly = true ∧ e = .storeReadOnly .update s.name)) := by
  rcases Action.bind_eq_error_iff.mp h with h | ⟨_, s₁, he, h⟩
  · exact enterChange_refused h
  · obtain ⟨hsame, _⟩ := enterChange_eq_ok he
    -- Behind the entrance the address is compared, and it is that of the slot.
    obtain h | ⟨_, s₂, hg, h⟩ := Action.bind_eq_error_iff.mp h
    · cases h
    · obtain ⟨rfl, rfl⟩ := EStateM.Result.ok.inj hg
      simp only [hsame.entries, hslot, if_true] at h
      cases h

/-- An update at the address of the value fails only where changes are hindered. -/
theorem update_eq_error {value : Bytes} {slot : Slot} (hslot : s.entries.get? key = some slot)
    (h : update .write slot.address key value s = .error e s') :
    s'.SameUpToPlan s ∧ s.Hindered := by
  obtain ⟨hsame, hcause⟩ := update_refused hslot h
  exact ⟨hsame, hcause.elim (fun hplanned => .inr hplanned.1) fun hread => .inl hread.1⟩

/-- A removal that succeeds has taken out the selected keys and counts them. -/
theorem removeAll_eq_ok {range : KeyRange} {count : Nat}
    (h : removeAll .write range s = .ok count s') :
    s'.SameUpToPlan (s.without range) ∧ count = (range.scan s.entries.entries).length := by
  obtain ⟨_, s₁, he, h⟩ := Action.bind_eq_ok_iff.mp h
  obtain ⟨hsame, _⟩ := enterChange_eq_ok he
  obtain ⟨_, s₂, hg, h⟩ := Action.bind_eq_ok_iff.mp h
  obtain ⟨rfl, rfl⟩ := EStateM.Result.ok.inj hg
  obtain ⟨_, _, hset, h⟩ := Action.bind_eq_ok_iff.mp h
  obtain ⟨_, rfl⟩ := EStateM.Result.ok.inj hset
  obtain ⟨rfl, rfl⟩ := EStateM.Result.ok.inj h
  exact ⟨hsame.without range, by rw [hsame.entries, List.length_map]⟩

/-- A removal that fails changes nothing but the plan. -/
theorem removeAll_eq_error {range : KeyRange} (h : removeAll .write range s = .error e s') :
    s'.SameUpToPlan s ∧ s.Hindered := by
  rcases Action.bind_eq_error_iff.mp h with h | ⟨_, s₁, _, h⟩
  · exact enterChange_eq_error h
  · cases h

/-- One value is gone, and all others stay. -/
theorem value?_erase (s : Store) (key key' : Bytes) :
    ({ s with entries := s.entries.erase key } : Store).value? key' =
      if key = key' then none else s.value? key' := by
  simp only [value?, SortedMap.get?_erase_eq]
  split <;> rfl

/-- A removal of one key that succeeds has erased it. -/
theorem remove_eq_ok {found : Bool} (h : remove .write key s = .ok found s') :
    s'.SameUpToPlan { s with entries := s.entries.erase key } := by
  obtain ⟨_, s₁, he, h⟩ := Action.bind_eq_ok_iff.mp h
  obtain ⟨_, rfl⟩ := EStateM.Result.ok.inj h
  have hsame := (enterChange_eq_ok he).1
  have hcalm := hsame.calm
  rw [hsame.eq] at hcalm ⊢
  exact ⟨rfl, hcalm⟩

/-- A removal of one key that fails changes nothing but the plan. -/
theorem remove_eq_error (h : remove .write key s = .error e s') :
    s'.SameUpToPlan s ∧ s.Hindered := by
  rcases Action.bind_eq_error_iff.mp h with h | ⟨_, s₁, _, h⟩
  · exact enterChange_eq_error h
  · cases h

/-! ## Open stores -/

namespace Open

/-- An open store stays open when bytes are added. -/
theorem appended (h : s.Open) (key fragment : Bytes) : (s.appended key fragment).Open := by
  rw [Store.appended]
  cases s.entries.get? key <;> exact ⟨h.free, h.writable, h.calm⟩

/-- An open store stays open when a value is replaced. -/
theorem updated (h : s.Open) (address : Nat) (key value : Bytes) :
    (s.updated address key value).Open := ⟨h.free, h.writable, h.calm⟩

/-- An open store stays open when a value comes in. -/
theorem place (h : s.Open) (key value : Bytes) : (s.place key value).Open :=
  ⟨h.free, h.writable, h.calm⟩

/-- An open store stays open when keys are removed. -/
theorem without (h : s.Open) (range : KeyRange) : (s.without range).Open :=
  ⟨h.free, h.writable, h.calm⟩

/-- An open store takes a new value under a key. -/
theorem exists_put (h : s.Open) (key value : Bytes) :
    ∃ address s', Store.put .write key value s = .ok address s' ∧ s'.Open := by
  cases hput : Store.put .write key value s with
  | ok address s' => exact ⟨address, s', rfl, (put_eq_ok hput).open (h.place key value)⟩
  | error e s' => exact absurd (put_eq_error hput).2 h.not_hindered

/-- An open store takes another value at the address of the old one. -/
theorem exists_update (h : s.Open) {key : Bytes} {slot : Slot}
    (hslot : s.entries.get? key = some slot) (value : Bytes) :
    ∃ address s', Store.update .write slot.address key value s = .ok address s' ∧ s'.Open := by
  cases hupdate : Store.update .write slot.address key value s with
  | ok address s' =>
    exact ⟨address, s', rfl, (update_eq_ok hupdate).1.open (h.updated slot.address key value)⟩
  | error e s' => exact absurd (update_eq_error hslot hupdate).2 h.not_hindered

end Open

end Store

/-! ## Ranges -/

section Runs

variable {α : Type} {p q : α → Bool}

/-- Where `p` does not come back, the elements in front are all that have it. -/
theorem takeWhile_eq_filter {l : List α} (h : l.Pairwise fun a b => p b → p a) :
    l.takeWhile p = l.filter p := by
  induction l with
  | nil => rfl
  | cons a l ih =>
    obtain ⟨ha, hl⟩ := List.pairwise_cons.mp h
    cases hp : p a with
    | true => rw [List.takeWhile_cons_of_pos hp, List.filter_cons_of_pos hp, ih hl]
    -- From here on `p` is false, so the filter finds nothing more either.
    | false =>
      have hnil : l.filter p = [] := List.filter_eq_nil_iff.mpr fun b hb hpb => by
        rw [ha b hb hpb] at hp
        cases hp
      rw [List.takeWhile_cons_of_neg (by simp [hp]), List.filter_cons_of_neg (by simp [hp]), hnil]

/-- Where `q` does not come back, it is false behind the elements in front. -/
theorem eq_false_of_mem_dropWhile {l : List α} (h : l.Pairwise fun a b => q b → q a) :
    ∀ a ∈ l.dropWhile q, q a = false := by
  induction l with
  | nil => simp
  | cons a l ih =>
    obtain ⟨ha, hl⟩ := List.pairwise_cons.mp h
    cases hq : q a with
    | true =>
      rw [List.dropWhile_cons_of_pos hq]
      exact ih hl
    -- The first element without `q` is where the rest begins.
    | false =>
      rw [List.dropWhile_cons_of_neg (by simp [hq])]
      refine List.forall_mem_cons.mpr ⟨hq, fun b hb => ?_⟩
      rw [Bool.eq_false_iff]
      intro hqb
      rw [ha b hb hqb] at hq
      cases hq

/-- Elements that a filter does not select may be dropped from the front. -/
theorem filter_dropWhile {l : List α} (h : ∀ a ∈ l, q a → p a = false) :
    (l.dropWhile q).filter p = l.filter p := by
  induction l with
  | nil => rfl
  | cons a l ih =>
    obtain ⟨ha, hl⟩ := List.forall_mem_cons.mp h
    -- An element that is dropped from the front would not be selected either.
    cases hq : q a with
    | true =>
      rw [List.dropWhile_cons_of_pos hq, ih hl, List.filter_cons_of_neg (by simp [ha hq])]
    | false => rw [List.dropWhile_cons_of_neg (by simp [hq])]

end Runs

namespace KeyRange

/-- The selected keys are those from `lower` on where a scan goes on. -/
theorem matches?_iff (r : KeyRange) (key : Bytes) :
    r.matches? key ↔ (compare key r.lower).isLT = false ∧ r.continues key := by
  have hlower : (compare r.lower key).isLE ↔ (compare key r.lower).isLT = false := by
    rw [Std.OrientedOrd.eq_swap (a := key)]
    cases compare r.lower key <;> decide
  rw [← hlower]
  cases r with
  | startingWith head =>
    refine ⟨fun h => ⟨?_, h⟩, fun h => h.2⟩
    exact isLE_compare_of_extends (List.isPrefixOf_iff_prefix.mp h)
  | between low high => exact Bool.and_eq_true_iff

/-- Where a scan goes on, it has gone on before. -/
theorem continues_of_isLE {r : KeyRange} {key key' : Bytes} (hlower : (compare r.lower key).isLE)
    (hle : (compare key key').isLE) (h : r.continues key') : r.continues key := by
  -- What lies between two keys with a beginning in common has it, too.
  cases r with
  | startingWith head =>
    exact List.isPrefixOf_iff_prefix.mpr
      (prefix_of_between (List.isPrefixOf_iff_prefix.mp h) hlower hle)
  | between low high =>
    rw [continues, Ordering.isLT_iff_eq_lt] at h ⊢
    exact Std.TransCmp.lt_of_isLE_of_lt hle h

/-- A scan finds exactly the selected keys. -/
theorem scan_eq_filter {α : Type} (r : KeyRange) {entries : List (Bytes × α)}
    (h : entries.Pairwise fun a b => compare a.1 b.1 = .lt) :
    r.scan entries = entries.filter fun e => r.matches? e.1 := by
  -- Keys in front of `lower` come first, and are not selected.
  have hfront : entries.Pairwise fun a b =>
      (compare b.1 r.lower).isLT → (compare a.1 r.lower).isLT := h.imp fun {a b} hab hb => by
    rw [Ordering.isLT_iff_eq_lt] at hb ⊢
    exact Std.TransCmp.lt_trans hab hb
  have hbehind := eq_false_of_mem_dropWhile hfront
  -- Behind them a scan goes on exactly at the selected keys.
  have hgo : (entries.dropWhile fun e => (compare e.1 r.lower).isLT).Pairwise fun a b =>
      r.continues b.1 → r.continues a.1 :=
    (h.sublist (List.dropWhile_sublist _)).imp_of_mem fun {a b} ha _ hab hb => by
      refine continues_of_isLE ?_ (by rw [hab]; rfl) hb
      have hlower := hbehind a ha
      rw [Std.OrientedOrd.eq_swap] at hlower
      revert hlower
      cases compare r.lower a.1 <;> decide
  have hselected : ∀ e ∈ entries.dropWhile fun e => (compare e.1 r.lower).isLT,
      r.continues e.1 = r.matches? e.1 := fun e he => by
    rw [Bool.eq_iff_iff, matches?_iff]
    exact ⟨fun hc => ⟨hbehind e he, hc⟩, And.right⟩
  -- A scan is therefore a filter of what does not stand in front.
  rw [scan, takeWhile_eq_filter hgo, List.filter_congr hselected]
  refine filter_dropWhile fun e _ hlt => ?_
  rw [Bool.eq_false_iff]
  intro hm
  rw [((matches?_iff r e.1).mp hm).1] at hlt
  cases hlt

end KeyRange

namespace Store

variable {s : Store} {range : KeyRange}

/-- The keys of a scan are the selected ones that there is a value under. -/
theorem mem_scan {key : Bytes} :
    key ∈ (range.scan s.entries.entries).map (·.1) ↔
      range.matches? key ∧ (s.entries.get? key).isSome := by
  rw [KeyRange.scan_eq_filter range s.entries.ascending]
  simp only [List.mem_map, List.mem_filter, Option.isSome_iff_exists]
  constructor
  · rintro ⟨⟨k, slot⟩, ⟨hmem, hselected⟩, rfl⟩
    exact ⟨hselected, slot, SortedMap.mem_entries_iff.mp hmem⟩
  · rintro ⟨hselected, slot, hslot⟩
    exact ⟨(key, slot), ⟨SortedMap.mem_entries_iff.mpr hslot, hselected⟩, rfl⟩

/-- Under the selected keys there is nothing left, and the other slots are as before. -/
theorem get?_without (s : Store) (range : KeyRange) (key : Bytes) :
    (s.without range).entries.get? key =
      if range.matches? key then none else s.entries.get? key := by
  rw [without, SortedMap.get?_foldl_erase]
  split
  · next hmem => rw [if_pos (mem_scan.mp hmem).1]
  · next hmem =>
    split
    -- A selected key that the scan does not find has no slot anyway.
    · next hselected =>
      cases hs : s.entries.get? key with
      | none => rfl
      | some slot => exact absurd (mem_scan.mpr ⟨hselected, by rw [hs]; rfl⟩) hmem
    · rfl

/-- What is left are the entries whose keys are not selected. -/
theorem entries_without (s : Store) (range : KeyRange) :
    (s.without range).entries = s.entries.filter fun key => !range.matches? key :=
  SortedMap.ext_get? fun key => by
    rw [get?_without, SortedMap.get?_filter]
    cases range.matches? key <;> rfl

/-- Under the selected keys there is no value left, and the other values are as before. -/
theorem value?_without (s : Store) (range : KeyRange) (key : Bytes) :
    (s.without range).value? key = if range.matches? key then none else s.value? key := by
  rw [value?, get?_without, value?]
  split <;> rfl

/-! ## Contents -/

/-- The contents are the keys with the values under them. -/
theorem mem_contents_iff {key value : Bytes} :
    (key, value) ∈ s.contents ↔ s.value? key = some value := by
  simp only [contents, value?, List.mem_map, Option.map_eq_some_iff]
  constructor
  · rintro ⟨⟨k, slot⟩, hmem, heq⟩
    obtain ⟨rfl, rfl⟩ := Prod.mk.inj heq
    exact ⟨slot, SortedMap.mem_entries_iff.mp hmem, rfl⟩
  · rintro ⟨slot, hslot, rfl⟩
    exact ⟨(key, slot), SortedMap.mem_entries_iff.mpr hslot, rfl⟩

/-- The contents are listed in the order of the keys. -/
theorem ascending_contents (s : Store) :
    s.contents.Pairwise fun a b => compare a.1 b.1 = .lt :=
  s.entries.ascending.map _ fun _ _ h => h

/-- The contents are determined by the values. -/
theorem contents_eq_of_value?_eq {t : Store} (h : t.value? = s.value?) :
    t.contents = s.contents := by
  have hentries : t.entries.mapValues (·.data) = s.entries.mapValues (·.data) :=
    SortedMap.ext_get? fun key => by
      rw [SortedMap.get?_mapValues, SortedMap.get?_mapValues]
      exact congrFun h key
  exact congrArg SortedMap.entries hentries

/-- A scan answers the part of the contents that is selected. -/
theorem scan_eq_filter_contents (s : Store) (range : KeyRange) :
    (range.scan s.entries.entries).map (fun e => (e.1, e.2.data)) =
      s.contents.filter fun p => range.matches? p.1 := by
  rw [KeyRange.scan_eq_filter range s.entries.ascending, contents, List.filter_map]
  rfl

end Store

end XmlIndex
