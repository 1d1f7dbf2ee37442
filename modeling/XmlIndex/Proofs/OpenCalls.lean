import XmlIndex.Proofs.IndexContents

/-! # Calls that nothing stands in the way of

Where the lock is free, the store can be written and no call is planned to fail
(`Store.Open`), a call fails for a reason of its own: the key of a name cannot be formed, a
first load comes to a name that holds a node of the document already, or the one who drops a
document wants it to stop.  `Index.Op.Declined` has these reasons, and
`Index.Op.declined_of_open` says that there are no others. -/

namespace XmlIndex

namespace Index

/-! ## Removals -/

section Removals

variable {document : Document} {name : QName} {removed : List NodeId} {i i' : Index} {e : Error}

/-- A value is rewritten if what is left of it is known. -/
theorem exists_rewriteValue {s : Store} {doc : DocId} {key value : Bytes} (ho : s.Open)
    (hvalue : withoutNodes doc removed ((s.value? key).getD []) = .ok value) :
    ∃ s', rewriteValue doc removed key s = .ok () s' ∧ s'.Open := by
  have hget := Store.get_of_planned (ho.calm .get) key
  -- Without a value an empty one is put there; with one it is updated at its address.
  cases hslot : s.entries.get? key with
  | none =>
    obtain ⟨address, s', hput, ho'⟩ := ho.exists_put key []
    refine ⟨s', Action.bind_eq_ok_iff.mpr ⟨_, s, hget, ?_⟩, ho'⟩
    simp only [hslot]
    exact Action.bind_eq_ok_iff.mpr ⟨address, s', hput, rfl⟩
  | some slot =>
    rw [Store.value?_of_get? hslot, Option.getD_some] at hvalue
    obtain ⟨address, s', hupdate, ho'⟩ := ho.exists_update hslot value
    refine ⟨s', Action.bind_eq_ok_iff.mpr ⟨_, s, hget, ?_⟩, ho'⟩
    simp only [hslot]
    refine Action.bind_eq_ok_iff.mpr ⟨_, s, Action.ofExcept_eq_ok_iff.mpr ⟨hvalue, rfl⟩, ?_⟩
    exact Action.bind_eq_ok_iff.mpr ⟨address, s', hupdate, rfl⟩

/-- A removal goes through if its key can be formed and what is left of the value is known; it
leaves the store open. -/
theorem exists_removeNodes_of_withoutNodes {k : Key} {t : SymbolTable} {value : Bytes}
    (removed : List NodeId) (ho : i.store.Open)
    (hof : Key.ofName name.kind document.collection name i.symbols = .ok k t)
    (hvalue : withoutNodes document.id removed ((i.store.value? k.toBytes).getD []) =
      .ok value) :
    ∃ i', removeNodes document name removed i = .ok () i' ∧ i'.store.Open := by
  obtain ⟨s', hrewrite, ho'⟩ := exists_rewriteValue ho hvalue
  have hlocked := (Store.locked_of_isFree ho.free _).trans hrewrite
  refine ⟨{ i with store := s', symbols := t }, ?_, ho'⟩
  -- The key is formed before the lock is taken.
  have hkey : keyOf name.kind document.collection name i = .ok k { i with symbols := t } :=
    keyOf_eq_ok_iff.mpr ⟨t, hof, rfl⟩
  exact Action.bind_eq_ok_iff.mpr ⟨k, _, hkey, Action.on_eq_ok_iff.mpr ⟨s', hlocked, rfl⟩⟩

/-- On intact values a removal whose key can be formed goes through. -/
theorem exists_removeNodes {k : Key} {t : SymbolTable} (ho : i.store.Open)
    (hs : i.store.IntactValues) (removed : List NodeId)
    (hof : Key.ofName name.kind document.collection name i.symbols = .ok k t) :
    ∃ i', removeNodes document name removed i = .ok () i' ∧ i'.store.Open := by
  -- The value can be decoded, so it is known what is left of it.
  have hvalue : ∃ value,
      withoutNodes document.id removed ((i.store.value? k.toBytes).getD []) = .ok value := by
    cases hv : i.store.value? k.toBytes with
    | none => exact ⟨[], withoutNodes_nil document.id removed⟩
    | some value =>
      obtain ⟨bs, hbs, rfl⟩ := hs _ value hv
      exact ⟨_, withoutNodes_eq hbs document.id removed⟩
  obtain ⟨value, hvalue⟩ := hvalue
  exact exists_removeNodes_of_withoutNodes removed ho hof hvalue

/-- The key of a name cannot be formed. -/
def Unformable (i : Index) (collection : CollectionId) (name : QName) (e : Error) : Prop :=
  ∃ t, Key.ofName name.kind collection name i.symbols = .error e t

/-- What the attempt to form a key leaves behind does not help to form it. -/
theorem unformable_of_symbols {collection : CollectionId} {t t' : SymbolTable}
    (h : Key.ofName name.kind collection name t = .error e t') (hi : i.symbols = t') :
    i.Unformable collection name e := by
  refine ⟨t', ?_⟩
  rw [hi]
  exact Key.ofName_of_error h

/-- A removal fails for want of its key. -/
theorem unformable_of_removeNodes (ho : i.store.Open) (hs : i.store.IntactValues)
    (h : removeNodes document name removed i = .error e i') :
    i'.Unformable document.collection name e := by
  -- With a key the removal would have gone through.
  cases hof : Key.ofName name.kind document.collection name i.symbols with
  | ok k t =>
    obtain ⟨i₁, hok, _⟩ := exists_removeNodes ho hs removed hof
    rw [hok] at h
    cases h
  | error e' t =>
    rcases Action.bind_eq_error_iff.mp h with hkey | ⟨k, i₁, hkey, _⟩
    · obtain ⟨t', hof', rfl⟩ := Action.on_eq_error_iff.mp hkey
      exact unformable_of_symbols hof' rfl
    · obtain ⟨t', hof', _⟩ := keyOf_eq_ok_iff.mp hkey
      rw [hof] at hof'
      cases hof'

/-- Removals leave the store open. -/
theorem Removals.open {b : Batch} {names : List QName} (h : Removals b names i i')
    (hfits : RemovalsFit b names i) (hs : i.store.IntactFor i.symbols)
    (ho : i.store.Open) : i'.store.Open := by
  induction h with
  | nil => exact ho
  | @cons q names nodes i i₁ i' known removed rest ih =>
    obtain ⟨hfirst, hrest⟩ := hfits _ known
    obtain ⟨k, _, hof, _⟩ := removeNodes_eq_ok removed
    -- The removal is known to end in an open store, and it has one end only.
    obtain ⟨i₂, hok, ho'⟩ := exists_removeNodes ho hs.values (nodes.map (·.node)) hof
    obtain ⟨_, rfl⟩ := EStateM.Result.ok.inj (removed.symm.trans hok)
    exact ih (hrest _ removed) (intactFor_of_removeNodes hs hfirst removed) ho'

end Removals

/-! ## Dropping -/

section Dropping

variable {s : Store}

/-- Families are dropped. -/
theorem exists_dropKinds (ho : s.Open) (collection : CollectionId) (kinds : List NameKind) :
    ∃ count s', dropKinds collection kinds s = .ok count s' := by
  induction kinds generalizing s with
  | nil => exact ⟨0, s, rfl⟩
  | cons kind kinds ih =>
    cases hremove : Store.removeAll .write (rangeOf kind collection) s with
    | ok here s₁ =>
      obtain ⟨more, s', hmore⟩ := ih ((Store.removeAll_eq_ok hremove).1.open (ho.without _))
      refine ⟨here + more, s', Action.bind_eq_ok_iff.mpr ⟨here, s₁, hremove, ?_⟩⟩
      exact Action.bind_eq_ok_iff.mpr ⟨more, s', hmore, rfl⟩
    | error e s₁ => exact absurd (Store.removeAll_eq_error hremove).2 ho.not_hindered

/-- A collection is dropped. -/
theorem exists_dropCollection {i : Index} (ho : i.store.Open) (collection : CollectionId) :
    ∃ count i', dropCollection collection i = .ok count i' := by
  obtain ⟨count, s', hdrop⟩ := exists_dropKinds ho collection NameKind.all
  have hlocked := (Store.locked_of_isFree ho.free _).trans hdrop
  refine ⟨count, { i with store := s' }, ?_⟩
  rw [dropCollection, onStore]
  exact Action.on_eq_ok_iff.mpr ⟨s', hlocked, rfl⟩

end Dropping

/-! ## Every call -/

/-- Why a call fails that nothing stands in the way of.  A batch has come to a name by then, and
what it did for the names in front of it is done. -/
def Op.Declined (i i' : Index) (e : Error) : Op → Prop
  | .flush b => ∃ committed name waiting, b.names = committed ++ name :: waiting ∧
      NodeMap.Inserts b committed i.nodeMap i'.nodeMap ∧
      (i'.Unformable b.document.collection name e ∨ b.order = .ordered ∧
        ∃ n, i'.nodeMap name.kind b.document.collection name b.document.id n ≠ none)
  | .removeNodes document name _ => i'.Unformable document.collection name e
  | .removeBatch b => ∃ removed name waiting, b.names = removed ++ name :: waiting ∧
      NodeMap.Removes b removed i.nodeMap i'.nodeMap ∧
      i'.Unformable b.document.collection name e
  | .dropDocument document stop =>
    ∃ n written, stop n = true ∧ e = .removalStopped document.uri written
  | .dropCollection _ => False

section Declined

variable {i i' : Index} {b : Batch} {e : Error}

/-- What refuses a block is a node of its document. -/
theorem exists_nodeMap_ne_none {name : QName} {k : Key} {value : Bytes}
    (hs : i.store.IntactFor i.symbols)
    (hk : Key.lookup? i.symbols name.kind b.document.collection name = some k)
    (hv : i.store.value? k.toBytes = some value)
    (h : (Block.scan value).requireNoBlockOf b.document.id k = .error e) :
    ∃ n, i.nodeMap name.kind b.document.collection name b.document.id n ≠ none := by
  obtain ⟨bs, hbs, rfl⟩ := hs.values k.toBytes value hv
  rw [hbs.scan_eq] at h
  -- Without a block of the document the check would go through.
  have hblock : ∃ b' ∈ bs, b'.doc = b.document.id := by
    apply Classical.byContradiction
    intro hnone
    have hok : (⟨bs, none⟩ : Framing).requireNoBlockOf b.document.id k = .ok () :=
      Framing.requireNoBlockOf_eq_ok_iff.mpr fun b' hb' hdoc => hnone ⟨b', hb', hdoc⟩
    rw [hok] at h
    cases h
  rw [nodeMap, Store.nodeMap_of_lookup? hk, hv, blocksOf_valueOf hbs]
  exact Block.exists_addressIn_ne_none hbs hblock

/-- A flush fails for want of a key, or at a name that the document has. -/
theorem declined_of_flush (hb : b.Fits) (ho : i.store.Open) (hs : i.store.IntactFor i.symbols)
    {f' : Flushing} (h : flush (flushing i b) = .error e f') :
    (Op.flush b).Declined i f'.index e := by
  rw [← flushAmid_none] at h
  obtain ⟨committed, name, waiting, t, s, hi, hrefused⟩ := flushAmid_eq_error h
  have hreason := hrefused ho fun _ _ hopen => hopen
  have hintact := hi.commits.intactFor hb hs
  have hcontents : f'.index.nodeMap = s.nodeMap t := hi.nodeMap_eq hintact
  refine ⟨committed, name, waiting, hi.names_eq, ?_, ?_⟩
  · rw [hcontents]
    exact hi.commits.inserts hb hs
  rcases hreason with ⟨t', hof⟩ | ⟨hord, k, t', value, hof, hvalue, hrefuse⟩
  · exact .inl (unformable_of_symbols hof (by rw [hi.symbols]; exact congrArg Action.stateOf hof))
  · have hsymbols : f'.index.symbols = t' := by
      rw [hi.symbols]
      exact congrArg Action.stateOf hof
    -- The name has its codes by now, so the map can be read at it.
    obtain ⟨hlookup, hext⟩ := Key.ofName_eq_ok hof
    refine .inr ⟨hord, exists_nodeMap_ne_none ?_ (hsymbols ▸ hlookup) ?_ hrefuse⟩
    · exact hintact.of_sameContents hi.sameContents (hsymbols ▸ hext)
    · rw [hi.sameContents.value?, hvalue]

/-- A removal of a batch fails for want of a key. -/
theorem declined_of_removeBatch {state : Index × Batch} (hfits : RemovalsFit b b.names i)
    (ho : i.store.Open) (hs : i.store.IntactFor i.symbols)
    (h : removeBatch (i, b) = .error e state) : (Op.removeBatch b).Declined i state.1 e := by
  obtain ⟨removed, name, waiting, i₁, nodes, hnames, hremovals, _, herror⟩ :=
    removeBatch_eq_error h
  rw [hnames] at hfits
  -- The failing removal starts from what the ones before have left intact.
  have hintact := hremovals.intactFor hfits.front hs
  refine ⟨removed, name, waiting, hnames, ?_, ?_⟩
  · rw [nodeMap_of_removeNodes_eq_error hintact herror]
    exact hremovals.removes hfits.front hs
  · exact unformable_of_removeNodes (hremovals.open hfits.front hs ho) hintact.values herror

/-- A drop of a document fails if it is told to stop. -/
theorem declined_of_dropDocument {document : Document} {stop : Nat → Bool}
    (ho : i.store.Open) (hs : i.store.IntactValues)
    (h : dropDocument document stop i = .error e i') :
    ∃ n written, stop n = true ∧ e = .removalStopped document.uri written := by
  -- No value is in its way.
  have hread : ∀ key, i.store.ReadableAt key := fun key value hv => by
    obtain ⟨bs, hbs, rfl⟩ := hs key value hv
    rw [hbs.scan_eq]
  obtain ⟨_, ⟨hfree, _⟩ | ⟨_, _, d, _, _, hcause⟩⟩ := dropDocument_halts h
  · rw [ho.free] at hfree
    cases hfree
  · obtain ⟨hstop, rfl⟩ := hcause.told ho fun key _ => hread key
    exact ⟨d.asked, d.written, hstop, rfl⟩

/-- A call whose outline has failed has failed. -/
theorem Op.outline_eq_error {σ α : Type} {index : σ → Index} {x : EStateM.Result Error σ α}
    (h : outline index x = .error e i') : ∃ s, x = .error e s ∧ index s = i' := by
  cases x with
  | ok a s => cases h
  | error e' s =>
    obtain ⟨rfl, hindex⟩ := EStateM.Result.error.inj h
    exact ⟨s, rfl, hindex⟩

/-- A call that nothing stands in the way of fails for a reason of its own. -/
theorem Op.declined_of_open {op : Op} (hfits : op.Fits i) (ho : i.store.Open)
    (hs : i.store.IntactFor i.symbols) (h : op.run i = .error e i') : op.Declined i i' e := by
  -- Each call in turn; the drop of a collection has no reason of its own.
  cases op with
  | flush batch =>
    obtain ⟨f, hflush, rfl⟩ := outline_eq_error h
    exact declined_of_flush hfits ho hs hflush
  | removeNodes document name removed => exact unformable_of_removeNodes ho hs.values h
  | removeBatch batch =>
    obtain ⟨state, hremove, rfl⟩ := outline_eq_error h
    exact declined_of_removeBatch hfits ho hs hremove
  | dropDocument document stop =>
    obtain ⟨i₁, hdrop, rfl⟩ := outline_eq_error h
    exact declined_of_dropDocument ho hs.values hdrop
  | dropCollection collection =>
    obtain ⟨count, i₁, hdrop⟩ := exists_dropCollection ho collection
    rw [run, hdrop] at h
    cases h

end Declined

end Index

end XmlIndex
