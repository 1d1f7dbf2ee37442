import XmlIndex.Proofs.PlainMap

/-! # The index as a plain map

`Index.nodeMap` reads the index as a map: under the key of a name, the address of a node of a
document is that in the first stored entry with its id.  Codes given to new names change
nothing of it (`Store.nodeMap_of_extends`).

Every call does to the contents what it does to the plain map (`Index.Op.Does.step_nodeMap`): a
commit puts nodes behind those that are there, where the first entry wins; a removal merges
blocks, where again the first entry wins; dropping takes out whole blocks or whole keys. -/

namespace XmlIndex

namespace Store

open Index (blocksOf)

/-- The contents of the store under the keys of a symbol table. -/
def nodeMap (s : Store) (t : SymbolTable) : NodeMap := fun kind collection name doc =>
  match Key.lookup? t kind collection name with
  | none => fun _ => none
  | some k => Block.addressIn doc (blocksOf (s.value? k.toBytes))

section Contents

variable {s s' : Store} {t t' : SymbolTable} {kind : NameKind} {collection : CollectionId}
  {name : QName} {doc : DocId} {k : Key}

/-- The map under a name is read from the value of its key. -/
theorem nodeMap_of_lookup? (h : Key.lookup? t kind collection name = some k) :
    s.nodeMap t kind collection name doc =
      Block.addressIn doc (blocksOf (s.value? k.toBytes)) := by
  simp only [nodeMap, h]

/-- Without codes the map is empty. -/
theorem nodeMap_of_lookup?_eq_none (h : Key.lookup? t kind collection name = none) :
    s.nodeMap t kind collection name doc = fun _ => none := by
  simp only [nodeMap, h]

/-- Names with one key have one map. -/
theorem byHeading_nodeMap (s : Store) (t : SymbolTable) : (s.nodeMap t).ByHeading := by
  intro kind collection name name' h
  unfold nodeMap
  rw [Key.lookup?_of_sameHeading h]

/-- Stores with the same values hold the same. -/
theorem nodeMap_congr (h : ∀ key, s'.value? key = s.value? key) :
    s'.nodeMap t = s.nodeMap t := by
  funext kind collection name doc
  cases hk : Key.lookup? t kind collection name with
  | none => rw [nodeMap_of_lookup?_eq_none hk, nodeMap_of_lookup?_eq_none hk]
  | some k => rw [nodeMap_of_lookup? hk, nodeMap_of_lookup? hk, h]

/-- The keys that there is a value under are those of names whose codes are in the table. -/
def KeysNamed (s : Store) (t : SymbolTable) : Prop :=
  ∀ key, (s.value? key).isSome → Key.Named t key

/-- There is nothing yet under the key of a name that gets its codes only now. -/
theorem value?_of_new_name (hs : s.KeysNamed t) (hext : t'.Extends t)
    (hnew : Key.lookup? t kind collection name = none)
    (hk : Key.lookup? t' kind collection name = some k) : s.value? k.toBytes = none := by
  cases hv : s.value? k.toBytes with
  | none => rfl
  | some value =>
    -- A stored key belongs to a name with codes, and that has the same heading.
    obtain ⟨kind', collection', name', k', hk', hbytes⟩ := hs k.toBytes (by rw [hv]; rfl)
    obtain rfl := Key.toBytes_inj hbytes
    obtain ⟨rfl, rfl, hheading⟩ := Key.lookup?_inj hk (Key.lookup?_of_extends hext hk')
    rw [Key.lookup?_of_sameHeading hheading, hk'] at hnew
    cases hnew

/-- Codes given to new names do not change the contents. -/
theorem nodeMap_of_extends (hs : s.IntactFor t) (hext : t'.Extends t) :
    s.nodeMap t' = s.nodeMap t := by
  funext kind collection name doc
  cases hk : Key.lookup? t kind collection name with
  | some k =>
    rw [nodeMap_of_lookup? hk, nodeMap_of_lookup? (Key.lookup?_of_extends hext hk)]
  | none =>
    rw [nodeMap_of_lookup?_eq_none hk]
    -- A name whose codes are new has no value yet.
    cases hk' : Key.lookup? t' kind collection name with
    | none => rw [nodeMap_of_lookup?_eq_none hk']
    | some k =>
      rw [nodeMap_of_lookup? hk', value?_of_new_name hs.keys hext hk hk']
      rfl

/-- A new value under the key of a name changes the part of one document. -/
theorem nodeMap_change {document : Document} {value : Bytes}
    {f : (NodeId → Option Address) → NodeId → Option Address}
    (hk : Key.lookup? t name.kind document.collection name = some k)
    (hstore : ∀ key, s'.value? key = if key = k.toBytes then some value else s.value? key)
    (hpart : Block.addressIn document.id (blocksOf (some value)) =
      f (Block.addressIn document.id (blocksOf (s.value? k.toBytes))))
    (hothers : ∀ doc ≠ document.id, Block.addressIn doc (blocksOf (some value)) =
      Block.addressIn doc (blocksOf (s.value? k.toBytes))) :
    s'.nodeMap t = (s.nodeMap t).change document name f := by
  funext kind collection name' doc
  rw [NodeMap.change]
  split
  · next hplace =>
    -- A name with this heading has the key that was written.
    obtain ⟨rfl, rfl, hheading, rfl⟩ := hplace
    have hk' := (Key.lookup?_of_sameHeading hheading).symm.trans hk
    rw [nodeMap_of_lookup? hk', nodeMap_of_lookup? hk', hstore, if_pos rfl, hpart]
  · next hplace =>
    cases hk' : Key.lookup? t kind collection name' with
    | none => rw [nodeMap_of_lookup?_eq_none hk', nodeMap_of_lookup?_eq_none hk']
    | some k' =>
      rw [nodeMap_of_lookup? hk', nodeMap_of_lookup? hk', hstore]
      split
      · next hbytes =>
        -- The key is that of the name, so it is the document that is another one.
        obtain rfl := Key.toBytes_inj hbytes
        obtain ⟨rfl, rfl, hheading⟩ := Key.lookup?_inj hk hk'
        exact hothers doc fun hdoc => hplace ⟨rfl, rfl, hheading, hdoc⟩
      · rfl

end Contents

end Store

/-- The contents of the index. -/
def Index.nodeMap (i : Index) : NodeMap := i.store.nodeMap i.symbols

/-! ## Commits -/

section Commits

variable {b : Batch} {names : List QName} {s s' : Store} {t t' : SymbolTable}

/-- What is committed is inserted, and a first load is committed only where nothing was. -/
theorem Batch.Commits.inserts (hb : b.Fits) (h : b.Commits names t s t' s')
    (hs : s.IntactFor t) : NodeMap.Inserts b names (s.nodeMap t) (s'.nodeMap t') := by
  induction h with
  | nil => exact .nil
  | @cons q names nodes k t t₁ t' s s' known formed accepted rest ih =>
    -- Each commit inserts one name; the ones behind it start from there.
    obtain ⟨hlookup, hext⟩ := Key.ofName_eq_ok formed
    obtain ⟨bs, hbs, hvalue, hnew, hintact, hstore⟩ := hb.commit_blocks known accepted hs
    have hblocks : Index.blocksOf (s.value? k.toBytes) = bs := Index.blocksOf_of_getD hbs hvalue
    have hfit : Entry.FitBlock (NodeRef.entries nodes) :=
      (hb q nodes known).2.perm (NodeRef.perm_entries nodes)
    have hinsert : (s.appended k.toBytes (b.blockOf nodes)).nodeMap t₁ =
        (s.nodeMap t).insert b.document q nodes := by
      rw [← Store.nodeMap_of_extends hs hext]
      -- Of its document the block comes behind all others; those of the others stay.
      refine Store.nodeMap_change hlookup hstore ?_ fun doc hdoc => ?_
      · funext n
        rw [Index.blocksOf_valueOf hintact, hblocks, Block.addressIn_append,
          Block.addressIn_ofEntries hfit, if_pos rfl, NodeRef.find?_entries, List.find?_map,
          Option.map_map]
        rfl
      · funext n
        rw [Index.blocksOf_valueOf hintact, hblocks, Block.addressIn_append,
          Block.addressIn_ofEntries hfit, if_neg (Ne.symm hdoc), Option.or_none]
    refine .cons known (fun hord n => ?_) ?_
    · rw [← Store.nodeMap_of_extends hs hext, Store.nodeMap_of_lookup? hlookup, hblocks]
      exact Block.addressIn_of_forall_ne (hnew hord) n
    · rw [← hinsert]
      exact ih (hb.intactFor_appended known formed accepted hs)

/-- A name that failed has changed nothing. -/
theorem Index.Interrupted.nodeMap_eq {f : Flushing} {committed waiting : List QName}
    {name : QName} (hi : Index.Interrupted b names t s f committed name waiting t' s')
    (hs : s'.IntactFor t') : f.index.nodeMap = s'.nodeMap t' := by
  have hintact := hs.of_sameContents hi.sameContents (.refl t')
  rw [Index.nodeMap, Store.nodeMap_of_extends hintact hi.extends_symbols,
    Store.nodeMap_congr hi.sameContents.value?]

end Commits

/-! ## Removals -/

namespace Index

section Removals

variable {i i' : Index} {document : Document} {name : QName} {removed : List NodeId}
  {e : Error}

/-- A removal takes the nodes out of the map. -/
theorem nodeMap_of_removeNodes (hs : i.store.IntactFor i.symbols)
    (hfits : i.RemovalFits document name removed)
    (h : removeNodes document name removed i = .ok () i') :
    i'.nodeMap = i.nodeMap.remove document name removed := by
  obtain ⟨k, bs, hof, hbs, hvalue, hlength, hstore⟩ := removeNodes_blocks hs hfits h
  obtain ⟨hlookup, hext⟩ := Key.ofName_eq_ok hof
  have hblocks : blocksOf (i.store.value? k.toBytes) = bs := blocksOf_of_getD hbs hvalue
  have hafter := blocksOf_valueOf (hbs.rewritten hlength)
  rw [nodeMap, nodeMap, ← Store.nodeMap_of_extends hs hext]
  -- Only the blocks of the document are rewritten.
  refine Store.nodeMap_change hlookup hstore ?_ fun doc hdoc => ?_
  · funext n
    rw [hafter, hblocks, Block.addressIn_rewritten hbs hlength]
    simp
  · funext n
    rw [hafter, hblocks, Block.addressIn_rewritten hbs hlength]
    simp [hdoc]

/-- A failing removal leaves the map. -/
theorem nodeMap_of_removeNodes_eq_error (hs : i.store.IntactFor i.symbols)
    (h : removeNodes document name removed i = .error e i') : i'.nodeMap = i.nodeMap := by
  obtain ⟨hsame, hsymbols⟩ := removeNodes_eq_error h
  rw [nodeMap, nodeMap, hsymbols, Store.nodeMap_congr hsame.value?,
    Store.nodeMap_of_extends hs (extends_stateOf_ofName _ _ _ _)]

/-- Removals take the nodes of their names out of the map, one name after the other. -/
theorem Removals.removes {b : Batch} {names : List QName} (h : Removals b names i i')
    (hfits : RemovalsFit b names i) (hs : i.store.IntactFor i.symbols) :
    NodeMap.Removes b names i.nodeMap i'.nodeMap := by
  induction h with
  | nil => exact .nil
  | cons known removed rest ih =>
    obtain ⟨hfirst, hrest⟩ := hfits _ known
    -- The rest of the names is removed from the map that the first removal has left.
    have hremoves := ih (hrest _ removed) (intactFor_of_removeNodes hs hfirst removed)
    rw [nodeMap_of_removeNodes hs hfirst removed] at hremoves
    exact .cons known hremoves

end Removals

/-! ## Dropping -/

section Dropping

variable {s s' : Store} {t : SymbolTable} {kinds : List NameKind} {collection : CollectionId}
  {document : Document}

/-- The keys of some families in a collection. -/
theorem keysOf_toBytes {k : Key} :
    KeysOf kinds collection k.toBytes ↔ k.kind ∈ kinds ∧ k.collection = collection := by
  simp only [KeysOf, Key.head_isPrefixOf_toBytes]
  constructor
  · rintro ⟨_, hmem, rfl, hc⟩
    exact ⟨hmem, hc⟩
  · rintro ⟨hmem, hc⟩
    exact ⟨k.kind, hmem, rfl, hc⟩

/-- There are no other families. -/
theorem mem_all (kind : NameKind) : kind ∈ NameKind.all := by
  cases kind <;> decide

/-- Removing all keys of some families empties the map there. -/
theorem nodeMap_of_cleared
    (h : Store.ChangedAt (fun _ => none) (KeysOf kinds collection) s s') :
    s'.nodeMap t = (s.nodeMap t).withoutKinds collection kinds := by
  funext kind collection' name doc n
  rw [NodeMap.withoutKinds]
  cases hk : Key.lookup? t kind collection' name with
  | none => rw [Store.nodeMap_of_lookup?_eq_none hk, Store.nodeMap_of_lookup?_eq_none hk, ite_self]
  | some k =>
    obtain ⟨rfl, rfl⟩ := Key.kind_of_lookup? hk
    rw [Store.nodeMap_of_lookup? hk, Store.nodeMap_of_lookup? hk]
    -- The key is of one of these families or not.
    split
    · next hplace =>
      rw [(h k.toBytes).1 (keysOf_toBytes.mpr ⟨hplace.2, hplace.1⟩)]
      rfl
    · next hplace =>
      rw [(h k.toBytes).2 fun hkey => hplace ((keysOf_toBytes.mp hkey).symm)]

/-- Cutting out a document leaves the blocks of the others. -/
theorem blocksOf_cutOut (hs : s.IntactValues) (key : Bytes) :
    blocksOf (cutOut document (s.value? key)) =
      Block.others document.id (blocksOf (s.value? key)) := by
  cases hv : s.value? key with
  | none => rfl
  | some value =>
    obtain ⟨bs, hbs, rfl⟩ := hs key value hv
    rw [cutOut, Option.map_some, Block.cut_valueOf hbs, blocksOf_valueOf (hbs.others _),
      blocksOf_valueOf hbs]

/-- Where a document was cut out, nothing is held for it any more; all else is as before. -/
theorem nodeMap_of_cutOut {done : Bytes → Prop} {kind : NameKind} {name : QName} {k : Key}
    (hs : s.IntactValues) (h : Store.ChangedAt (cutOut document) done s s')
    (hk : Key.lookup? t kind collection name = some k) (doc : DocId) :
    (done k.toBytes → s'.nodeMap t kind collection name doc = fun n =>
        if doc = document.id then none else s.nodeMap t kind collection name doc n) ∧
      (¬ done k.toBytes →
        s'.nodeMap t kind collection name doc = s.nodeMap t kind collection name doc) := by
  rw [Store.nodeMap_of_lookup? hk, Store.nodeMap_of_lookup? hk]
  -- A key that the drop came to has lost the blocks of the document, and no other blocks.
  refine ⟨fun hdone => ?_, fun hdone => ?_⟩
  · rw [(h k.toBytes).1 hdone, blocksOf_cutOut hs]
    funext n
    exact Block.addressIn_others
  · rw [(h k.toBytes).2 hdone]

/-- A document that was cut out of some values is gone from whole parts of the contents. -/
theorem nodeMap_parts_of_cutOut {done : Bytes → Prop} (hs : s.IntactValues)
    (h : Store.ChangedAt (cutOut document) done s s')
    (hdone : ∀ key, (s.value? key).isSome → done key →
      KeysOf NameKind.all document.collection key)
    (kind : NameKind) (collection : CollectionId) (name : QName) (doc : DocId) :
    s'.nodeMap t kind collection name doc = s.nodeMap t kind collection name doc ∨
      doc = document.id ∧ collection = document.collection ∧
        s'.nodeMap t kind collection name doc = fun _ => none := by
  cases hk : Key.lookup? t kind collection name with
  | none =>
    rw [Store.nodeMap_of_lookup?_eq_none hk, Store.nodeMap_of_lookup?_eq_none hk]
    exact .inl rfl
  | some k =>
    -- A value that was come to has lost the document, and no other.
    obtain ⟨hcut, hrest⟩ := nodeMap_of_cutOut hs h hk doc
    by_cases hkey : done k.toBytes
    · rw [hcut hkey]
      by_cases hdoc : doc = document.id
      · cases hv : s.value? k.toBytes with
        | none =>
          -- Without a value nothing was held for the document anyway.
          rw [Store.nodeMap_of_lookup? hk, hv]
          refine .inl (funext fun n => ?_)
          rw [if_pos hdoc]
          rfl
        | some value =>
          have hkeys := keysOf_toBytes.mp (hdone k.toBytes (by rw [hv]; rfl) hkey)
          obtain ⟨rfl, rfl⟩ := Key.kind_of_lookup? hk
          exact .inr ⟨hdoc, hkeys.2, funext fun n => if_pos hdoc⟩
      · exact .inl (funext fun n => if_neg hdoc)
    · exact .inl (hrest hkey)

/-- A document dropped from its collection is gone if nothing is held for it elsewhere. -/
theorem nodeMap_of_dropped {home : DocId → CollectionId} (hs : s.IntactValues)
    (h : Store.ChangedAt (cutOut document) (KeysOf NameKind.all document.collection) s s')
    (hd : document.collection = home document.id) (hhome : (s.nodeMap t).AtHome home) :
    s'.nodeMap t = (s.nodeMap t).withoutDocument document := by
  funext kind collection name doc n
  rw [NodeMap.withoutDocument]
  cases hk : Key.lookup? t kind collection name with
  | none => rw [Store.nodeMap_of_lookup?_eq_none hk, Store.nodeMap_of_lookup?_eq_none hk, ite_self]
  | some k =>
    obtain ⟨hdone, hrest⟩ := nodeMap_of_cutOut hs h hk doc
    obtain ⟨rfl, rfl⟩ := Key.kind_of_lookup? hk
    -- A key of the collection has lost the document, any other kept its value.
    by_cases hc : k.collection = document.collection
    · rw [hdone (keysOf_toBytes.mpr ⟨mem_all k.kind, hc⟩)]
    · rw [hrest fun hkey => hc (keysOf_toBytes.mp hkey).2]
      split
      · next hdoc =>
        -- Under the keys of another collection there was nothing.
        refine Decidable.byContradiction fun hn => hc ?_
        rw [hhome _ _ _ _ _ hn, hdoc, hd]
      · rfl

end Dropping

/-! ## Every call -/

/-- A call does to the contents of the index what it does to the plain map. -/
theorem Op.Does.step_nodeMap {home : DocId → CollectionId} {i i' : Index} {op : Op}
    {outcome : Except Error Unit} (h : op.Does i outcome i') (hs : i.store.IntactFor i.symbols)
    (hfits : op.Fits i) (hop : op.AtHome home) (hhome : i.nodeMap.AtHome home) :
    NodeMap.Step op outcome i.nodeMap i'.nodeMap := by
  cases h with
  | flushed commits same =>
    have hinserts := commits.inserts hfits hs
    rw [← Store.nodeMap_congr same.value?] at hinserts
    exact .flush (List.append_nil _).symm (by simp) hinserts
  -- A flush that stopped has inserted the names in front, and lost nothing.
  | flushStopped interrupted =>
    have hinserts := interrupted.commits.inserts hfits hs
    rw [← interrupted.nodeMap_eq (interrupted.commits.intactFor hfits hs)] at hinserts
    exact .flush interrupted.names_eq (by simp) hinserts
  | removed h =>
    rw [nodeMap_of_removeNodes hs hfits h]
    exact .removeNodes
  | removeFailed h =>
    rw [nodeMap_of_removeNodes_eq_error hs h]
    exact .removeNodesFailed
  | batchRemoved removals =>
    exact .removeBatch (List.append_nil _).symm (by simp) (removals.removes hfits hs)
  -- A removal that stopped has removed the names in front.
  | batchStopped names removals known failed =>
    rw [Op.Fits, names] at hfits
    have hremoves := removals.removes hfits.front hs
    have hintact := removals.intactFor hfits.front hs
    rw [← nodeMap_of_removeNodes_eq_error hintact failed] at hremoves
    exact .removeBatch names (by simp) hremoves
  | dropped symbols changed =>
    have hcontents := nodeMap_of_dropped hs.values changed hop hhome
    rw [← symbols] at hcontents
    unfold nodeMap
    rw [hcontents, symbols]
    exact .dropDocument
  | dropStopped symbols within changed =>
    unfold nodeMap
    rw [symbols]
    exact .dropDocumentFailed (Store.byHeading_nodeMap _ _)
      (nodeMap_parts_of_cutOut hs.values changed within)
  -- Dropping families empties the map under them.
  | cleared symbols changed =>
    unfold nodeMap
    rw [symbols, nodeMap_of_cleared changed]
    exact .dropCollection (List.append_nil _).symm (by simp)
  | clearStopped kinds symbols changed =>
    unfold nodeMap
    rw [symbols, nodeMap_of_cleared changed]
    exact .dropCollection kinds (by simp)

end Index

end XmlIndex
