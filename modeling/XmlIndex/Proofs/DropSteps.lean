import XmlIndex.Proofs.DropWalks

/-! # The steps of dropping

Dropping a collection or a document changes the values under some keys, all in the same way,
and leaves the others alone (`Store.ChangedAt`).  When it succeeds, these are all keys of the
collection; when it fails, they are the keys it has come to. -/

namespace XmlIndex

namespace Store

variable {f : Option Bytes → Option Bytes} {done done' : Bytes → Prop} {s s₁ s' : Store}

/-! ## Changes under some keys -/

/-- Under the keys in `done` the values are changed by `f`, under the others not at all. -/
def ChangedAt (f : Option Bytes → Option Bytes) (done : Bytes → Prop) (s s' : Store) : Prop :=
  ∀ key, (done key → s'.value? key = f (s.value? key)) ∧
    (¬ done key → s'.value? key = s.value? key)

namespace ChangedAt

/-- Nothing changes if only failures are planned. -/
theorem of_sameUpToPlan (h : s'.SameUpToPlan s) : ChangedAt f (fun _ => False) s s' :=
  fun key => ⟨False.elim, fun _ => h.value? key⟩

/-- A change that is the same the second time goes on from where it was. -/
theorem trans (h : ChangedAt f done s s₁) (h' : ChangedAt f done' s₁ s')
    (hf : ∀ key, f (f (s.value? key)) = f (s.value? key)) :
    ChangedAt f (fun key => done key ∨ done' key) s s' := by
  intro key
  -- A key changed in both steps is changed by `f` twice.
  by_cases hdone : done key <;> by_cases hdone' : done' key
  · refine ⟨fun _ => ?_, fun hn => absurd (.inl hdone) hn⟩
    rw [(h' key).1 hdone', (h key).1 hdone, hf]
  · refine ⟨fun _ => ?_, fun hn => absurd (.inl hdone) hn⟩
    rw [(h' key).2 hdone', (h key).1 hdone]
  · refine ⟨fun _ => ?_, fun hn => absurd (.inr hdone') hn⟩
    rw [(h' key).1 hdone', (h key).2 hdone]
  · refine ⟨fun hor => (hor.elim hdone hdone').elim, fun _ => ?_⟩
    rw [(h' key).2 hdone', (h key).2 hdone]

/-- Only keys that there is a value under matter. -/
theorem congr (h : ChangedAt f done s s') (hf : f none = none)
    (hiff : ∀ key, (s.value? key).isSome → (done key ↔ done' key)) :
    ChangedAt f done' s s' := by
  intro key
  -- Under a key without a value there is none afterwards either, as `f none = none`.
  cases hv : s.value? key with
  | none =>
    have hnone : s'.value? key = none := by
      by_cases hdone : done key
      · rw [(h key).1 hdone, hv, hf]
      · rw [(h key).2 hdone, hv]
    rw [hf]
    exact ⟨fun _ => hnone, fun _ => hnone⟩
  | some value =>
    rw [← hv, ← hiff key (by rw [hv]; rfl)]
    exact h key

/-- It makes no difference what failures were planned before. -/
theorem congr_left (h : ChangedAt f done s₁ s') (hs : s₁.SameUpToPlan s) :
    ChangedAt f done s s' := fun key => hs.value? key ▸ h key

end ChangedAt

end Store

/-- All values of the store are made of intact blocks. -/
def Store.IntactValues (s : Store) : Prop :=
  ∀ key value, s.value? key = some value → Block.IntactValue value

namespace Index

variable {collection : CollectionId} {kinds : List NameKind} {i i' : Index} {s s₁ s' : Store}
  {e : Error}

/-! ## Collections -/

/-- Removing a range removes the values of a family. -/
theorem changedAt_without (s : Store) (kind : NameKind) (collection : CollectionId) :
    Store.ChangedAt (fun _ => none) (fun key => (Key.head kind collection).isPrefixOf key) s
      (s.without (rangeOf kind collection)) := by
  intro key
  rw [rangeOf, Store.value?_without]
  exact ⟨fun h => if_pos h, fun h => if_neg h⟩

/-- The keys of the families in the collection are gone, and that many of them there were; the
others keep their values and addresses. -/
structure Cleared (kinds : List NameKind) (collection : CollectionId) (count : Nat)
    (s s' : Store) : Prop where
  gone : ∀ key, KeysOf kinds collection key → s'.entries.get? key = none
  kept : ∀ key, ¬ KeysOf kinds collection key → s'.entries.get? key = s.entries.get? key
  counted : s'.size + count = s.size

/-- Clearing one family and then others clears all of them. -/
theorem Cleared.cons {kind : NameKind} {here more : Nat}
    (h : s₁.SameUpToPlan (s.without (rangeOf kind collection)))
    (hhere : here = ((rangeOf kind collection).scan s.entries.entries).length)
    (hrest : Cleared kinds collection more s₁ s') :
    Cleared (kind :: kinds) collection (here + more) s s' where
  gone key hkey := by
    -- It went with a later family, or with the first.
    by_cases hlater : KeysOf kinds collection key
    · exact hrest.gone key hlater
    · rw [hrest.kept key hlater, h.entries, Store.get?_without]
      exact if_pos ((keysOf_cons.mp hkey).resolve_right hlater)
  kept key hkey := by
    obtain ⟨hfirst, hlater⟩ := not_or.mp (mt keysOf_cons.mpr hkey)
    rw [hrest.kept key hlater, h.entries, Store.get?_without]
    exact if_neg hfirst
  counted := by
    have hfirst := s.size_without (rangeOf kind collection)
    rw [Store.select, List.length_map, ← hhere] at hfirst
    have hsize : s₁.size = (s.without (rangeOf kind collection)).size :=
      congrArg SortedMap.size h.entries
    have hlater := hrest.counted
    omega

/-- Under the cleared keys nothing is left. -/
theorem Cleared.changedAt {count : Nat} (h : Cleared kinds collection count s s') :
    Store.ChangedAt (fun _ => none) (KeysOf kinds collection) s s' := by
  intro key
  rw [Store.value?, Store.value?]
  exact ⟨fun hkey => by rw [h.gone key hkey]; rfl, fun hkey => by rw [h.kept key hkey]⟩

/-- Dropping families clears them. -/
theorem cleared_of_dropKinds {count : Nat} (h : dropKinds collection kinds s = .ok count s') :
    Cleared kinds collection count s s' := by
  -- Induction on the families: the first is dropped, then the others.
  induction kinds generalizing s count with
  | nil =>
    obtain ⟨rfl, rfl⟩ := EStateM.Result.ok.inj h
    exact ⟨fun key hkey => absurd hkey not_keysOf_nil, fun _ _ => rfl, rfl⟩
  | cons kind kinds ih =>
    obtain ⟨here, s₁, hremove, hrest⟩ := Action.bind_eq_ok_iff.mp h
    obtain ⟨more, s₂, hmore, hdone⟩ := Action.bind_eq_ok_iff.mp hrest
    obtain ⟨rfl, rfl⟩ := EStateM.Result.ok.inj hdone
    obtain ⟨hsame, hhere⟩ := Store.removeAll_eq_ok hremove
    exact .cons hsame hhere (ih hmore)

/-- When it fails, the families in front of one are dropped. -/
theorem dropKinds_eq_error (h : dropKinds collection kinds s = .error e s') :
    ∃ dropped kind waiting, kinds = dropped ++ kind :: waiting ∧
      Store.ChangedAt (fun _ => none) (KeysOf dropped collection) s s' := by
  -- Induction on the families; the removal of the first one fails, or a later one.
  induction kinds generalizing s with
  | nil => cases h
  | cons kind kinds ih =>
    rcases Action.bind_eq_error_iff.mp h with hremove | ⟨here, s₁, hremove, hrest⟩
    · refine ⟨[], kind, kinds, rfl, ?_⟩
      exact (Store.ChangedAt.of_sameUpToPlan (Store.removeAll_eq_error hremove).1).congr rfl
        fun key _ => ⟨False.elim, not_keysOf_nil⟩
    rcases Action.bind_eq_error_iff.mp hrest with hmore | ⟨_, _, _, hdone⟩
    · obtain ⟨dropped, kind', waiting, rfl, hdropped⟩ := ih hmore
      have hkinds := hdropped.congr_left (Store.removeAll_eq_ok hremove).1
      have hall := (changedAt_without s kind collection).trans hkinds fun _ => rfl
      exact ⟨kind :: dropped, kind', waiting, rfl, hall.congr rfl fun key _ => keysOf_cons.symm⟩
    · cases hdone

/-- A dropped collection is cleared in all families. -/
theorem dropCollection_eq_ok {count : Nat} (h : dropCollection collection i = .ok count i') :
    i'.symbols = i.symbols ∧ Cleared NameKind.all collection count i.store i'.store := by
  rw [dropCollection, onStore] at h
  obtain ⟨s', hlocked, rfl⟩ := Action.on_eq_ok_iff.mp h
  exact ⟨rfl, cleared_of_dropKinds (Store.locked_eq_ok hlocked).2⟩

/-- A drop that fails has cleared the families in front of one. -/
theorem dropCollection_eq_error (h : dropCollection collection i = .error e i') :
    i'.symbols = i.symbols ∧ ∃ dropped kind waiting, NameKind.all = dropped ++ kind :: waiting ∧
      Store.ChangedAt (fun _ => none) (KeysOf dropped collection) i.store i'.store := by
  rw [dropCollection, onStore] at h
  obtain ⟨s', hlocked, rfl⟩ := Action.on_eq_error_iff.mp h
  refine ⟨rfl, ?_⟩
  -- Without the lock no family was dropped.
  rcases Store.locked_eq_error hlocked with ⟨_, hs⟩ | ⟨_, hbody⟩
  · refine ⟨[], .element, [.attr, .attrId], rfl, fun key => ?_⟩
    refine ⟨fun hkey => absurd hkey not_keysOf_nil, fun _ => ?_⟩
    show s'.value? key = i.store.value? key
    rw [hs]
  · exact dropKinds_eq_error hbody

/-! ## Documents -/

section Documents

variable {document : Document} {stop : Nat → Bool} {keys : List Bytes}

/-- The change of the values when a document is dropped. -/
def cutOut (document : Document) (value? : Option Bytes) : Option Bytes :=
  value?.map (Block.cut document.id)

/-- Cutting out a document leaves intact values intact. -/
theorem intactValues_of_cutOut {done : Bytes → Prop} (hs : s.IntactValues)
    (h : Store.ChangedAt (cutOut document) done s s') : s'.IntactValues := by
  intro key value hv
  -- A value that was come to is cut, and a cut value is intact again.
  by_cases hdone : done key
  · rw [(h key).1 hdone] at hv
    obtain ⟨value', hv', rfl⟩ := Option.map_eq_some_iff.mp hv
    exact (hs key value' hv').cut document.id
  · rw [(h key).2 hdone] at hv
    exact hs key value hv

/-- Keys that are cut have lost their blocks of the document, and no other value has changed. -/
theorem changedAt_of_cutAt (h : Store.CutAt document.id keys s s') :
    Store.ChangedAt (cutOut document) (· ∈ keys) s s' :=
  fun _ => ⟨h.value?_of_mem, h.value?_of_not_mem⟩

/-- A document that is dropped is cut out of all values of its collection. -/
theorem dropDocument_eq_ok {count : Nat} (h : dropDocument document stop i = .ok count i') :
    i'.symbols = i.symbols ∧ Store.ChangedAt (cutOut document)
      (KeysOf NameKind.all document.collection) i.store i'.store := by
  obtain ⟨hi, d, _, hstripped⟩ := dropDocument_strips h
  refine ⟨by rw [hi], (changedAt_of_cutAt hstripped.cut).congr rfl fun key hsome => ?_⟩
  exact Store.mem_keysIn.trans (and_iff_left hsome)

/-- When that fails or is stopped, it is cut out of some of them. -/
theorem dropDocument_eq_error (h : dropDocument document stop i = .error e i') :
    i'.symbols = i.symbols ∧ ∃ done : Bytes → Prop,
      (∀ key, (i.store.value? key).isSome → done key →
        KeysOf NameKind.all document.collection key) ∧
      Store.ChangedAt (cutOut document) done i.store i'.store := by
  -- Without the lock no key was come to.
  obtain ⟨hi, ⟨_, hs, _⟩ | ⟨done, waiting, d, hsplit, hstripped, _⟩⟩ := dropDocument_halts h
  · refine ⟨by rw [hi], fun _ => False, fun _ _ => False.elim, .of_sameUpToPlan ?_⟩
    rw [hs]
    exact .refl _
  · refine ⟨by rw [hi], (· ∈ done), fun key _ hkey => ?_, changedAt_of_cutAt hstripped.cut⟩
    have hmem := List.mem_append_left waiting hkey
    rw [← hsplit] at hmem
    exact (Store.mem_keysIn.mp hmem).1

end Documents

end Index

end XmlIndex
