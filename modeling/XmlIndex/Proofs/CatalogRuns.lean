import XmlIndex.Proofs.CatalogCalls

/-! # Runs of a catalog

A run starts with a catalog without residents, over any store whose records have their names,
and goes on with calls, successful or not, and with changes of residents (`Catalog.Run`).
Between the calls others may do what they like to locks, pins, counts, write protection and
planned failures.  What is written is assumed to be read back (`Record.ReadsBack`); that two
collections differ in their numbers is not needed.

In every state of a run no record gets lost (`Catalog.Run.losesNothing`): opening, saving and
writing back change the record of no name, the other calls that of their own name at most, and
what is opened is the record there is. -/

namespace XmlIndex

namespace Catalog

variable {μ : Type} {s t : Catalog μ} {place : Pool.Place}

/-! ## Calls -/

/-- A call of a catalog. -/
inductive Call where
  | create (id : CollectionId) (name : String) (now : Timestamp)
  | openNamed (name : String)
  | save (place : Pool.Place)
  | remove (name : String)
  | sync

namespace Call

/-- What there is after a call, whether it answered or failed. -/
def after [SlotSource μ] (s : Catalog μ) : Call → Catalog μ
  | create id name now => Action.stateOf (Catalog.create id name now s)
  | openNamed name => Action.stateOf (Catalog.openNamed name s)
  | save place => Action.stateOf (Catalog.save place s)
  | remove name => Action.stateOf (Catalog.remove name s)
  | sync => Action.stateOf (Catalog.sync s)

/-- What is created is read back, and what is saved is a resident. -/
def Fits (s : Catalog μ) : Call → Prop
  | create id name now => (newRecord id name now).ReadsBack
  | save place => place ∈ s.cache.residents
  | openNamed _ | remove _ | sync => True

end Call

/-- A change of a record that keeps its name and is read back. -/
structure Fitting (f : Record → Record) (record : Record) : Prop where
  name : (f record).name = record.name
  readsBack : (f record).ReadsBack

/-- The catalog with a changed record. -/
def change (s : Catalog μ) (place : Pool.Place) (f : Record → Record) : Catalog μ :=
  s.withCollection place fun c => c.update f

/-- The states that calls and changes lead to, starting without residents. -/
inductive Run [SlotSource μ] : Catalog μ → Prop
  | start (store : Store) (size threshold : Nat) (source : μ)
    (stored? : ∀ name record, ({ store, source } : Ground μ).stored? name = some record →
      record.name = name ∧ record.ReadsBack) :
    Run (ofStore store size threshold source)
  | call {s : Catalog μ} (run : Run s) (call : Call) (fits : call.Fits s) : Run (call.after s)
  | change {s : Catalog μ} (run : Run s) {place : Pool.Place} (resident : place ∈ s.cache.residents)
    (f : Record → Record) (fitting : Fitting f (s.pool.get place).record) :
    Run (s.change place f)
  /-- Others may do what they like, but records and dirtiness stay. -/
  | others {s t : Catalog μ} (run : Run s) (alike : Alike t s) : Run t

/-! ## Changes -/

/-- A collection that is changed has the changed record. -/
theorem get_change_self (hplace : place < s.pool.size) (f : Record → Record) :
    (s.change place f).pool.get place = (s.pool.get place).update f := by
  rw [change, Hosted.withCollection, Pool.get_modify, if_pos ⟨rfl, hplace⟩]

/-- The other collections are as they were. -/
theorem get_change_of_ne {other : Pool.Place} (hne : other ≠ place) (f : Record → Record) :
    (s.change place f).pool.get other = s.pool.get other := by
  rw [change, Hosted.withCollection, Pool.get_modify_of_ne hne]

/-- A change keeps keys and names. -/
theorem extends_change (s : Catalog μ) (place : Pool.Place) (f : Record → Record) :
    (s.change place f).pool.Extends s.pool :=
  s.pool.extends_modify place (f := fun c => c.update f) rfl rfl

section Change

variable (h : Agrees s) (hplace : place ∈ s.cache.residents) {f : Record → Record}
  (hf : Fitting f (s.pool.get place).record)

include h hplace hf

/-- What was changed is dirty, so nothing need be stored of it. -/
theorem Agrees.change : Agrees (s.change place f) := by
  have hget := get_change_self (h.lt_size hplace) f
  refine ⟨h.consistent.of_extends (extends_change s place f), fun other hmem => ?_, h.stored?⟩
  -- It has its name and is read back; the others are as they were.
  by_cases heq : other = place
  · subst heq
    refine ⟨?_, ?_, ?_⟩ <;> rw [hget]
    · exact hf.name.trans (h.faithful other hplace).name
    · exact hf.readsBack
    · intro hdirty
      cases hdirty
  · have hfaithful := h.faithful other hmem
    refine ⟨?_, ?_, ?_⟩ <;> rw [get_change_of_ne heq]
    · exact hfaithful.name
    · exact hfaithful.readsBack
    · exact hfaithful.stored?

/-- Changing a resident changes the record of its own name and no other. -/
theorem Agrees.record?_change (name : String) :
    record? (s.change place f) name =
      if name = (s.pool.get place).name then some (f (s.pool.get place).record)
      else record? s name := by
  have ht := h.change hplace hf
  have hextends := extends_change s place f
  -- The name is that of a resident, the changed one or another, or of none.
  rcases h.record?_cases name with ⟨other, hmem, rfl, hrecord⟩ | ⟨habsent, hrecord⟩
  · have hmem' : other ∈ (s.change place f).cache.residents := hmem
    have htrecord := ht.record?_of_resident hmem'
    rw [hextends.name other (h.lt_size hmem)] at htrecord
    rw [htrecord, hrecord]
    split
    · next heq =>
      rw [h.eq_of_name hplace hmem heq, get_change_self (h.lt_size hplace)]
      rfl
    · next hne => rw [get_change_of_ne fun heq => hne (by rw [heq])]
  · rw [if_neg fun heq => habsent place hplace heq.symm, hrecord]
    refine ht.record?_of_absent fun other hmem => ?_
    rw [hextends.name other (h.lt_size hmem)]
    exact habsent other hmem

end Change

/-! ## Runs -/

section Runs

variable [SlotSource μ]

/-- Memory and store agree if nothing is in memory and every record has its name. -/
theorem agrees_ofStore {store : Store} (size threshold : Nat) (source : μ)
    (h : ∀ name record, ({ store, source } : Ground μ).stored? name = some record →
      record.name = name ∧ record.ReadsBack) : Agrees (ofStore store size threshold source) := by
  have hc := Cache.consistent_ofSize size threshold .empty
  refine ⟨hc, fun place hplace => ?_, h⟩
  obtain ⟨slot, hslot⟩ := Cache.mem_residents_iff.mp hplace
  cases hc.known slot place hslot

/-- Every call keeps the agreement. -/
theorem call_agrees (h : Agrees s) (call : Call) (hfits : call.Fits s) :
    Agrees (call.after s) := by
  cases call with
  | create id name now => exact (create_keeps h id name now hfits).1
  | openNamed name => exact (openNamed_kept h name).agrees
  | save place => exact (save_kept h hfits).agrees
  | remove name => exact (remove_keeps h name).1
  | sync => exact (sync_kept h).agrees

/-- In every run memory and store agree. -/
theorem Run.agrees (h : Run s) : Agrees s := by
  induction h with
  | start _ size threshold source stored? => exact agrees_ofStore size threshold source stored?
  | call _ call fits h => exact call_agrees h call fits
  | change _ resident f fitting h => exact h.change resident fitting
  | others _ alike h => exact (h.alike alike).agrees

/-- No record gets lost: clean residents are stored as they are, a call changes the record of its
own name at most, opening, saving and writing back change none, and answers are about the
records there are. -/
structure LosesNothing (s : Catalog μ) : Prop where
  clean : ∀ place ∈ s.cache.residents, (s.pool.get place).dirty = false →
    s.host.stored? (s.pool.get place).name = some (s.pool.get place).record
  change : ∀ place ∈ s.cache.residents, ∀ f, Fitting f (s.pool.get place).record → ∀ name,
    record? (s.change place f) name =
      if name = (s.pool.get place).name then some (f (s.pool.get place).record)
      else record? s name
  openNamed : ∀ name other, record? (Action.stateOf (openNamed name s)) other = record? s other
  save : ∀ place ∈ s.cache.residents, ∀ other,
    record? (Action.stateOf (save place s)) other = record? s other
  sync : ∀ other, record? (Action.stateOf (sync s)) other = record? s other
  create : ∀ id name now, (newRecord id name now).ReadsBack → ∀ other, other ≠ name →
    record? (Action.stateOf (create id name now s)) other = record? s other
  remove : ∀ name other, other ≠ name →
    record? (Action.stateOf (remove name s)) other = record? s other
  /-- What is opened has the record of the name, and it is nothing if there is none. -/
  opened : ∀ name place? t, Catalog.openNamed name s = .ok place? t →
    place?.map (fun place => (t.pool.get place).record) = record? s name
  /-- A collection is refused because it exists exactly if its name has a record. -/
  refused : ∀ id name now known t, isKnown name s = .ok known t →
    ((∃ u, Catalog.create id name now s = .error (.collectionExists name) u) ↔
      (record? s name).isSome = true)
  /-- After all has been written back, the store has the record of every name. -/
  synced : ∀ count t, Catalog.sync s = .ok count t →
    (∀ place ∈ t.cache.residents, (t.pool.get place).dirty = false) ∧
      ∀ name, t.host.stored? name = record? t name

/-- In every state of a run no record gets lost. -/
theorem Run.losesNothing (h : Run s) : LosesNothing s where
  clean place hplace := (h.agrees.faithful place hplace).stored?
  change _ hplace _ hf := h.agrees.record?_change hplace hf
  openNamed name := (openNamed_kept h.agrees name).record?
  save _ hplace := (save_kept h.agrees hplace).record?
  sync := (sync_kept h.agrees).record?
  create id name now hback := (create_keeps h.agrees id name now hback).2
  remove name := (remove_keeps h.agrees name).2
  opened _ _ _ hopen := openNamed_eq_ok h.agrees hopen
  refused id name now _ _ hknown := create_eq_exists_iff id name now hknown
  synced _ _ hsync := sync_eq_ok h.agrees hsync

end Runs

/-! ## A catalog of one slot -/

/-- The record of a collection that was changed after it was made. -/
def editedRecord : Record := { newRecord 1 "/db/a" .epoch with documents := ["x.xml"] }

/-- A catalog with one slot before anything is done. -/
def oneSlot : Catalog (Option Budget) := ofStore { name := "data", timeout := ⟨1000⟩ } 1 10 none

/-- A collection was made. -/
def created : Catalog (Option Budget) := Call.after oneSlot (.create 1 "/db/a" .epoch)

/-- It was changed but not saved, and a second one took its slot. -/
def evicted : Catalog (Option Budget) :=
  Call.after (created.change 0 fun _ => editedRecord) (.create 2 "/db/b" .epoch)

/-- A run leads there. -/
theorem run_evicted : Run evicted := by
  have hempty : ∀ name record, oneSlot.host.stored? name = some record →
      record.name = name ∧ record.ReadsBack := by
    intro name record hrecord
    rw [Ground.stored?, Store.value?_of_empty rfl, Option.bind_none] at hrecord
    cases hrecord
  have hcreated : Run created := .call (.start _ 1 10 none hempty) (.create 1 "/db/a" .epoch)
    (Record.readsBack (by decide +kernel) (by decide +kernel) (by decide) (by decide))
  -- The record was changed while the collection was a resident.
  have hedited : Run (created.change 0 fun _ => editedRecord) :=
    .change hcreated (by decide +kernel) _ ⟨by decide +kernel,
      Record.readsBack (by decide +kernel) (by decide +kernel) (by decide) (by decide)⟩
  exact .call hedited (.create 2 "/db/b" .epoch)
    (Record.readsBack (by decide +kernel) (by decide +kernel) (by decide) (by decide))

/-- The change was written when the collection left, so it is what is opened next. -/
theorem losesNothing_evicted :
    Run evicted ∧ evicted.cache.residents = [1] ∧ record? evicted "/db/a" = some editedRecord ∧
      LosesNothing evicted :=
  ⟨run_evicted, by decide +kernel, by decide +kernel, run_evicted.losesNothing⟩

end Catalog

end XmlIndex
