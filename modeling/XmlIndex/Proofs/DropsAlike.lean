import XmlIndex.Proofs.CensusCounts
import XmlIndex.Proofs.ReachedIndexes
import XmlIndex.Proofs.UpdatesAlike

/-! # Drops on alike indexes

Dropping goes through the keys of a collection in their order, which is that of the codes.  On
alike indexes with the same values the keys differ, and so does their order, but the values that
are come to are the same (`Index.Alike.perm_values`).  As long as all values can be read and nobody
stops it, a drop changes all of them or is refused at the first change, so it comes to the same in
both and leaves alike indexes behind (`Index.Alike.agree_dropCollection`,
`Index.Alike.agree_dropDocument`). -/

namespace XmlIndex

open XmlIndex.Action
open Index (KeysOf rangeOf)

namespace Store

variable {s s' : Store} {t : SymbolTable} {collection : CollectionId} {kinds : List NameKind}
  {key : Bytes}

/-- The values of a collection are those of its listed entries. -/
theorem Lists.perm_keysIn {es : List (Key × Bytes)} (h : s.Lists collection es)
    (hs : s.KeysNamed t) :
    ((s.keysIn collection NameKind.all).map s.value?).Perm (es.map fun e => some e.2) := by
  -- Both lists are without repeats and have the same members.
  have hkeys : (s.keysIn collection NameKind.all).Perm (es.map fun e => e.1.toBytes) := by
    have hkinds : NameKind.all.Nodup := by decide
    refine (List.perm_ext_iff_of_nodup (s.nodup_keysIn collection hkinds) ?_).mpr fun key => ?_
    · refine h.nodup.map_on fun e he e' he' hkey => ?_
      have hvalue := h.value?_of_mem he
      rw [hkey, h.value?_of_mem he'] at hvalue
      exact Prod.ext (Key.toBytes_inj hkey) (Option.some.inj hvalue).symm
    · rw [mem_keysIn, List.mem_map]
      constructor
      · rintro ⟨hkey, hsome⟩
        obtain ⟨value, hvalue⟩ := Option.isSome_iff_exists.mp hsome
        obtain ⟨_, _, _, k, _, rfl⟩ := hs key hsome
        exact ⟨(k, value), (h.mem_iff k value).mpr ⟨(Index.keysOf_toBytes.mp hkey).2, hvalue⟩, rfl⟩
      · rintro ⟨e, he, rfl⟩
        obtain ⟨hcollection, hvalue⟩ := (h.mem_iff e.1 e.2).mp he
        exact ⟨Index.keysOf_toBytes.mpr ⟨Index.mem_all _, hcollection⟩, by rw [hvalue]; rfl⟩
  -- Under its key, every entry has the value it is listed with.
  have hvalues : (es.map fun e => s.value? e.1.toBytes) = es.map fun e => some e.2 :=
    List.map_congr_left fun e he => h.value?_of_mem he
  have hmap := hkeys.map s.value?
  rw [List.map_map] at hmap
  exact hmap.trans (.of_eq hvalues)

end Store

namespace Index

variable {T : Interner → Interner → Prop} {tolerated : Error → Prop} {i i' : Index}
  {collection : CollectionId} {kinds : List NameKind} {s s' : Store}

/-- The values of a collection are the same in both, though perhaps in another order. -/
theorem Alike.perm_values (h : Alike T Eq i i') (collection : CollectionId) :
    ((i.store.keysIn collection NameKind.all).map i.store.value?).Perm
      ((i'.store.keysIn collection NameKind.all).map i'.store.value?) := by
  obtain ⟨es, _, hes⟩ := entriesOf_lists h.named (h.calm .findEntries) collection
  obtain ⟨es', _, hes'⟩ := entriesOf_lists h.named' (h.calm' .findEntries) collection
  have hmeasures := hes.perm_measures hes' h.named h.named' some fun kind q => by rw [h.values]
  exact (hes.perm_keysIn h.named).trans (hmeasures.trans (hes'.perm_keysIn h.named').symm)

/-- A change of all values of a collection leaves alike indexes alike. -/
theorem Alike.changedAt {f : Option Bytes → Option Bytes} (h : Alike T Eq i i')
    (hf : f none = none) (hs : Store.ChangedAt f (KeysOf NameKind.all collection) i.store s)
    (hs' : Store.ChangedAt f (KeysOf NameKind.all collection) i'.store s')
    (haccess : s.SameAccess i.store) (haccess' : s'.SameAccess i'.store) :
    AlikeWith T Eq i i' s s' where
  symbols := h.symbols
  named := keysNamed_of_changedAt h.named hf rfl hs
  named' := keysNamed_of_changedAt h.named' hf rfl hs'
  values := fun kind c q => by
    show s.valueUnder i.symbols kind c q = s'.valueUnder i'.symbols kind c q
    rw [Store.valueUnder_changedAt hf hs, Store.valueUnder_changedAt hf hs', h.values]
  free := fun mode => by
    rw [haccess.isFree, haccess'.isFree]
    exact h.free mode
  readOnly := haccess'.readOnly.trans (h.readOnly.trans haccess.readOnly.symm)
  calm := haccess.calm h.calm
  calm' := haccess'.calm h.calm'

/-! ## Collections -/

section Collections

/-- All keys of the families are counted, though those of one are gone before the next. -/
theorem dropKinds_of_calm (hs : s.Calm) (hwritable : s.readOnly = false) (hkinds : kinds.Nodup) :
    ∃ s', dropKinds collection kinds s = .ok (s.keysIn collection kinds).length s' := by
  induction kinds generalizing s with
  | nil => exact ⟨s, rfl⟩
  | cons kind kinds ih =>
    obtain ⟨hkind, hkinds⟩ := List.nodup_cons.mp hkinds
    have hremove : Store.removeAll .write (rangeOf kind collection) s =
        .ok (s.select (rangeOf kind collection)).length (s.without (rangeOf kind collection)) :=
      bind_eq_ok_iff.mpr ⟨(), s, Store.enterChange_of_writable hs hwritable .removeAll, rfl⟩
    obtain ⟨s', hrest⟩ := ih (s := s.without (rangeOf kind collection)) hs hwritable hkinds
    -- The keys of the other families are still there when the first one is gone.
    refine ⟨s', ?_⟩
    rw [dropKinds, bind_of_ok hremove, bind_of_ok hrest, Store.keysIn_congr fun key hkey => ?_]
    · rw [Store.keysIn, Store.keysIn, List.flatMap_cons, List.length_append]
      rfl
    · rw [Store.value?_without, if_neg]
      intro hmatches
      obtain ⟨kind', hmem, hhead⟩ := hkey
      exact hkind (Store.kind_eq_of_matches hmatches hhead ▸ hmem)

/-- The same number of keys is removed, or the same refusal met. -/
theorem Alike.agree_dropCollection (h : Alike T Eq i i') (collection : CollectionId) :
    Agree tolerated (Alike T Eq) Eq (dropCollection collection i)
      (dropCollection collection i') := by
  refine Alike.agree_onStore (Store.agree_locked (h.free .write) h fun _ => ?_)
  -- A store that cannot be written refuses the first family, whatever keys there are.
  cases hreadOnly : i.store.readOnly with
  | true =>
    have hrefused : ∀ {s : Store}, s.Calm → s.readOnly = true →
        dropKinds collection NameKind.all s = .error (.storeReadOnly .removeAll s.name) s :=
      fun hs hreadOnly => bind_of_error
        (bind_of_error (Store.enterChange_of_readOnly hs hreadOnly .removeAll))
    rw [hrefused h.calm hreadOnly, hrefused h.calm' (h.readOnly.trans hreadOnly)]
    exact .error rfl h
  | false =>
    have hkinds : NameKind.all.Nodup := by decide
    obtain ⟨s, hs⟩ := dropKinds_of_calm h.calm hreadOnly hkinds
    obtain ⟨s', hs'⟩ := dropKinds_of_calm h.calm' (h.readOnly.trans hreadOnly) hkinds
    have haccess := keepsAccess_dropKinds collection NameKind.all i.store
    have haccess' := keepsAccess_dropKinds collection NameKind.all i'.store
    rw [hs] at haccess
    rw [hs'] at haccess'
    rw [hs, hs']
    -- The answer is how many values there were, which is the same in both.
    have hlength := (h.perm_values collection).length_eq
    rw [List.length_map, List.length_map] at hlength
    exact .ok hlength (h.changedAt rfl (cleared_of_dropKinds hs).changedAt
      (cleared_of_dropKinds hs').changedAt haccess haccess')

end Collections

/-! ## Documents -/

section Documents

variable {document : Document} {stop : Nat → Bool} {keys : List Bytes} {key : Bytes} {d : Dropped}

/-- A value with a block of the document is written, any other is left alone. -/
theorem dropFromKey_cases (hs : s.Calm)
    (hread : ∀ value, s.value? key = some value → (Block.scan value).fault? = none) (d : Dropped) :
    (hasBlockOf document.id (s.value? key) = false ∧ dropFromKey document key d s = .ok d s) ∨
    ∃ value x, hasBlockOf document.id (s.value? key) = true ∧
      cutOut document (s.value? key) = some value ∧ s.Writes key value x ∧
      dropFromKey document key d s =
        (x >>= fun _ => pure { d with written := d.written + 1 } : Action Store Dropped) s := by
  rw [dropFromKey, bind_of_ok (Store.get_of_planned (hs .get) key)]
  cases hslot : s.entries.get? key with
  | none =>
    rw [Store.value?_of_get?_eq_none hslot]
    exact .inl ⟨rfl, rfl⟩
  | some slot =>
    rw [Store.value?_of_get? hslot] at hread ⊢
    have hscan : Block.scan slot.data = ⟨(Block.scan slot.data).blocks, none⟩ := by
      rw [← hread slot.data rfl]
    -- A value without a fault is cut up to its end.
    have hwithout : (Block.scan slot.data).without document.id =
        .ok (Block.cut document.id slot.data, hasBlockOf document.id (some slot.data)) := by
      rw [hscan, Framing.without_eq, Block.cut, hasBlockOf, blocksOf, hscan]
    dsimp only
    rw [hwithout]
    -- Only a value that had a block is written back.
    cases hblock : hasBlockOf document.id (some slot.data) with
    | false => exact .inl ⟨rfl, rfl⟩
    | true => exact .inr ⟨_, _, rfl, rfl, Store.writes_update hs hslot _, rfl⟩

/-- What dropping a document from the values under these keys comes to. -/
inductive DropEnds (document : Document) (keys : List Bytes) (d : Dropped) (s : Store) :
    EStateM.Result Error Store Dropped → Prop
  | stopped {n : Nat} {s' : Store} : DropEnds document keys d s
      (.error (.removalStopped document.uri n) s')
  | refused {call : StoreCall} (readOnly : s.readOnly = true)
      (found : countWith s document.id keys ≠ 0) :
      DropEnds document keys d s (.error (.storeReadOnly call s.name) s)
  | done {d' : Dropped} {s' : Store}
      (allowed : s.readOnly = true → countWith s document.id keys = 0)
      (written : d'.written = d.written + countWith s document.id keys)
      (access : s'.SameAccess s) (changed : Store.ChangedAt (cutOut document) (· ∈ keys) s s') :
      DropEnds document keys d s (.ok d' s')

/-- Dropping a document from the values of a collection ends in one of these ways. -/
theorem dropFromKinds_ends (stop : Nat → Bool) (hs : s.Calm)
    (hread : s.ReadableIn document.collection NameKind.all) :
    DropEnds document (s.keysIn document.collection NameKind.all) {} s
      (dropFromKinds document stop NameKind.all {} s) := by
  have hkinds : NameKind.all.Nodup := by decide
  have hwalk := walk_dropFromKinds document stop hkinds {} s
  generalize dropFromKinds document stop NameKind.all {} s = r at hwalk
  cases hwalk with
  | completed stripped =>
    refine .done (fun hreadOnly => Decidable.byContradiction fun hne => ?_)
      (by rw [stripped.tally]) (.trans (.of_sameUpToPlan stripped.cut.rest) ⟨rfl, rfl, rfl, id⟩)
      (changedAt_of_cutAt stripped.cut)
    rw [stripped.writable hne] at hreadOnly
    cases hreadOnly
  | halted split stripped cause =>
    -- Neither a planned failure nor a fault is there to stop it.
    cases cause with
    | stopped told => exact .stopped
    | unlisted planned => exact absurd hs planned
    | @refused key waiting _ goesOn cause =>
      have hmem : key ∈ s.keysIn document.collection NameKind.all := by
        rw [split]
        exact List.mem_append_right _ (.head _)
      cases cause with
      | unreadable stored fault =>
        rw [hread key _ (Store.mem_keysIn.mp hmem).1 stored] at fault
        cases fault
      | planned planned => exact absurd hs planned
      | readOnly found readOnly =>
        -- Nothing was written before, so nothing has changed.
        have hnone := Decidable.byContradiction fun hne => by
          rw [stripped.writable hne] at readOnly
          cases readOnly
        rw [eq_self_of_cutAt stripped.cut hs stripped.readable hnone]
        refine .refused readOnly ?_
        rw [split, countWith_append, countWith_cons_of_block found]
        omega

/-- Equally many values of a collection have a block of the document. -/
theorem Alike.countWith_eq (h : Alike T Eq i i') (doc : DocId) (collection : CollectionId) :
    countWith i.store doc (i.store.keysIn collection NameKind.all) =
      countWith i'.store doc (i'.store.keysIn collection NameKind.all) := by
  have hcount := (h.perm_values collection).countP_eq (hasBlockOf doc)
  rwa [List.countP_map, List.countP_map] at hcount

theorem Alike.readableIn (h : Alike T Eq i i')
    (hread : i.store.ReadableIn collection NameKind.all) :
    i'.store.ReadableIn collection NameKind.all := by
  intro key value hkey hv
  -- The key is that of a name, under whose other key the same value is readable.
  obtain ⟨kind, c, q, k', hk', rfl⟩ := h.named' key (by rw [hv]; rfl)
  have hunder := h.values kind c q
  rw [Store.valueUnder_of_lookup? hk', hv] at hunder
  obtain ⟨k, hk, hvalue⟩ := Option.bind_eq_some_iff.mp hunder
  refine hread k.toBytes value ?_ hvalue
  rw [keysOf_toBytes] at hkey ⊢
  rw [(Key.kind_of_lookup? hk).1, (Key.kind_of_lookup? hk).2]
  rwa [(Key.kind_of_lookup? hk').1, (Key.kind_of_lookup? hk').2] at hkey

/-- Two ends of a drop are the same, unless one of them is that it was stopped. -/
theorem DropEnds.agree {r r' : EStateM.Result Error Store Dropped} (h : Alike T Eq i i')
    (hends : DropEnds document (i.store.keysIn document.collection NameKind.all) {} i.store r)
    (hends' : DropEnds document (i'.store.keysIn document.collection NameKind.all) {} i'.store r')
    (hstop : ∀ n, outcomeOf r ≠ .error (.removalStopped document.uri n))
    (hstop' : ∀ n, outcomeOf r' ≠ .error (.removalStopped document.uri n)) :
    Agree tolerated (AlikeWith T Eq i i') (fun d d' => d.written = d'.written) r r' := by
  -- Both indexes have as many values with a block of the document.
  have hcount := h.countWith_eq document.id document.collection
  have hall : ∀ {s s' : Store}, Store.ChangedAt (cutOut document)
      (· ∈ s.keysIn document.collection NameKind.all) s s' →
      Store.ChangedAt (cutOut document) (KeysOf NameKind.all document.collection) s s' :=
    fun hchanged => hchanged.congr rfl fun key hsome =>
      Store.mem_keysIn.trans (and_iff_left hsome)
  cases hends with
  | stopped => exact absurd rfl (hstop _)
  | refused readOnly found =>
    cases hends' with
    | stopped => exact absurd rfl (hstop' _)
    | refused readOnly' found' => exact .error rfl h
    | done allowed' written' access' changed' =>
      -- One is refused at a first value to write, and the other has none.
      exact absurd (hcount.trans (allowed' (h.readOnly.trans readOnly))) found
  | done allowed written access changed =>
    cases hends' with
    | stopped => exact absurd rfl (hstop' _)
    | refused readOnly' found' =>
      exact absurd (hcount.symm.trans (allowed (h.readOnly.symm.trans readOnly'))) found'
    | done allowed' written' access' changed' =>
      -- Both have gone through, and have cut the same values.
      refine .ok ?_ (h.changedAt rfl (hall changed) (hall changed') access access')
      rw [written, written', hcount]

/-- If the walk through the values fails, so does the whole drop. -/
theorem outcomeOf_dropDocument {e : Error} (hfree : i.store.isFree .write)
    (h : outcomeOf (dropFromKinds document stop NameKind.all {} i.store) = .error e) :
    outcomeOf (dropDocument document stop i) = .error e := by
  cases hr : dropFromKinds document stop NameKind.all {} i.store with
  | ok d s =>
    rw [hr] at h
    cases h
  | error e' s =>
    rw [hr] at h
    obtain rfl := Except.error.inj h
    -- The lock was free, so the failure is that of the walk.
    have hstore : onStore (Store.locked .write (dropFromKinds document stop NameKind.all {})) i =
        .error e' { i with store := s } :=
      on_eq_error_iff.mpr ⟨s, by rw [Store.locked_of_isFree hfree, hr], rfl⟩
    rw [dropDocument, bind_of_error hstore]
    rfl

/-- A drop that is stopped in neither index comes to the same in both. -/
theorem Alike.agree_dropDocument (h : Alike T Eq i i')
    (hread : i.store.ReadableIn document.collection NameKind.all)
    (hstop : ∀ n, outcomeOf (dropDocument document stop i) ≠
      .error (.removalStopped document.uri n))
    (hstop' : ∀ n, outcomeOf (dropDocument document stop i') ≠
      .error (.removalStopped document.uri n)) :
    Agree tolerated (Alike T Eq) Eq (dropDocument document stop i)
      (dropDocument document stop i') := by
  -- A walk that was stopped would have stopped the whole drop.
  have hwalk : Agree tolerated (Alike T Eq) (fun d d' => d.written = d'.written)
      (onStore (Store.locked .write (dropFromKinds document stop NameKind.all {})) i)
      (onStore (Store.locked .write (dropFromKinds document stop NameKind.all {})) i') := by
    refine Alike.agree_onStore (Store.agree_locked (h.free .write) h fun hfree => ?_)
    exact DropEnds.agree h (dropFromKinds_ends stop h.calm hread)
      (dropFromKinds_ends stop h.calm' (h.readableIn hread))
      (fun n hn => hstop n (outcomeOf_dropDocument hfree hn))
      (fun n hn => hstop' n (outcomeOf_dropDocument ((h.free .write).trans hfree) hn))
  exact hwalk.bind fun d d' _ _ hd hj => .ok hd hj

end Documents

end Index

end XmlIndex
