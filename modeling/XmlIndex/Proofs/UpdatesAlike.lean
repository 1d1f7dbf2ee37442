import XmlIndex.Proofs.AlikeIndexes

/-! # Updates of alike indexes

A flush or a removal goes by the names of its batch and by the values under them.  On alike
indexes with the same values it therefore comes to the same: it writes the same names, fails at
the same one and for a cause of the same class, and leaves alike indexes behind
(`Index.Alike.agree_flush`, `Index.Alike.agree_removeNodes`, `Index.Alike.agree_removeBatch`).
The keys that it writes to may differ.

A single call that changes a value either does so or is refused by a read-only store
(`Store.Writes`); everything else is put together from such calls. -/

namespace XmlIndex

open XmlIndex.Action

/-! ## Calls that write one value -/

namespace Store

variable {s : Store} {key : Bytes}

/-- A read-only store refuses a change. -/
theorem enterChange_of_readOnly (h : s.Calm) (hreadOnly : s.readOnly = true) (call : StoreCall) :
    enterChange call .write s = .error (.storeReadOnly call s.name) s := by
  refine bind_eq_error_iff.mpr (.inr ⟨(), s, enter_of_planned (h call), ?_⟩)
  refine bind_eq_error_iff.mpr (.inr ⟨s, s, rfl, ?_⟩)
  simp only [hreadOnly]
  rfl

/-- A store that can be written lets a change begin. -/
theorem enterChange_of_writable (h : s.Calm) (hwritable : s.readOnly = false) (call : StoreCall) :
    enterChange call .write s = .ok () s := by
  refine bind_eq_ok_iff.mpr ⟨(), s, enter_of_planned (h call), ?_⟩
  refine bind_eq_ok_iff.mpr ⟨s, s, rfl, ?_⟩
  simp only [hwritable]
  rfl

/-- The call puts the value under the key, unless the store is read-only. -/
structure Writes (s : Store) (key value : Bytes) (x : Action Store Nat) : Prop where
  refused : s.readOnly = true → ∃ call, x s = .error (.storeReadOnly call s.name) s
  written : s.readOnly = false → ∃ address s', x s = .ok address s' ∧ s'.SameAccess s ∧
    ∀ key', s'.value? key' = if key' = key then some value else s.value? key'

/-- A call that succeeds on a store that can be written, and then puts the value there. -/
theorem Writes.of_eq_ok {value : Bytes} {call : StoreCall} {x : Action Store Nat}
    {rest : Unit → Action Store Nat} (hx : x = enterChange call .write >>= rest) (hs : s.Calm)
    (hkeeps : KeepsAccess id x) (herror : ∀ e s', x s = .error e s' → s.Hindered)
    (hok : ∀ address s', x s = .ok address s' →
      ∀ key', s'.value? key' = if key' = key then some value else s.value? key') :
    s.Writes key value x where
  refused hreadOnly := ⟨call, by rw [hx, bind_of_error (enterChange_of_readOnly hs hreadOnly call)]⟩
  written hwritable := by
    cases hr : x s with
    | ok address s' =>
      have haccess := hkeeps s
      rw [hr] at haccess
      exact ⟨address, s', rfl, haccess, hok address s' hr⟩
    | error e s' =>
      -- Nothing else could have hindered it.
      rcases herror e s' hr with hreadOnly | hplanned
      · rw [hwritable] at hreadOnly
        cases hreadOnly
      · exact absurd hs hplanned

/-- An append puts the fragment behind what is there. -/
theorem writes_append (hs : s.Calm) (fragment : Bytes) :
    s.Writes key ((s.value? key).getD [] ++ fragment) (append .write key fragment) :=
  .of_eq_ok rfl hs (keepsAccess_append _ _) (fun _ _ h => (append_eq_error h).2)
    fun _ _ h key' => by rw [(append_eq_ok h).1.value?, value?_appended]

/-- A put writes its value. -/
theorem writes_put (hs : s.Calm) (value : Bytes) : s.Writes key value (put .write key value) :=
  .of_eq_ok rfl hs (keepsAccess_put _ _) (fun _ _ h => (put_eq_error h).2)
    fun _ _ h key' => by rw [(put_eq_ok h).value?, value?_place]

/-- An update at the address of the value writes the new one. -/
theorem writes_update (hs : s.Calm) {slot : Slot} (hslot : s.entries.get? key = some slot)
    (value : Bytes) : s.Writes key value (update .write slot.address key value) :=
  .of_eq_ok rfl hs (keepsAccess_update _ _ _) (fun _ _ h => (update_eq_error hslot h).2)
    fun _ _ h key' => by rw [(update_eq_ok h).1.value?, value?_updated]

end Store

/-! ## Answers and failures of the same class -/

namespace Action

/-- Actions that go on from two outcomes of the same class, in the states that they find. -/
theorem Agree.ofExcept_bind {σ σ' α β β' : Type} {tolerated : Error → Prop} {R : σ → σ' → Prop}
    {Q : β → β' → Prop} {x x' : Except Error α} {f : α → Action σ β} {f' : α → Action σ' β'}
    {s : σ} {s' : σ'} (h : x.mapError Error.kind = x'.mapError Error.kind) (hs : R s s')
    (hf : ∀ a, x = .ok a → Agree tolerated R Q (f a s) (f' a s')) :
    Agree tolerated R Q ((Action.ofExcept x >>= f) s) ((Action.ofExcept x' >>= f') s') := by
  -- One outcome is an answer exactly if the other is.
  cases x with
  | ok a =>
    cases x' with
    | ok a' =>
      obtain rfl := Except.ok.inj h
      exact hf a rfl
    | error e' => cases h
  | error e =>
    cases x' with
    | ok a' => cases h
    | error e' => exact .error (Except.error.inj h) hs

end Action

namespace Framing

/-- The key is only named in the message. -/
theorem mapError_requireNoBlockOf (f : Framing) (doc : DocId) (k k' : Key) :
    (f.requireNoBlockOf doc k).mapError Error.kind =
      (f.requireNoBlockOf doc k').mapError Error.kind := by
  unfold requireNoBlockOf fold
  generalize f.blocks = bs
  -- Induction on the blocks: the first one of the document ends the walk.
  induction bs with
  | nil => rfl
  | cons b bs ih =>
    rw [List.foldlM_cons, List.foldlM_cons]
    by_cases hb : b.doc = doc
    · rw [if_pos hb, if_pos hb]
      rfl
    · rw [if_neg hb, if_neg hb]
      exact ih

end Framing

/-- The flushes work on alike indexes, have the same names waiting and have written the same. -/
structure Flushing.Alike (T : Interner → Interner → Prop) (f f' : Flushing) : Prop where
  index : Index.Alike T Eq f.index f'.index
  batch : f'.batch = f.batch
  summary : f'.summary = f.summary

namespace Index

variable {T : Interner → Interner → Prop} {V : Option Bytes → Option Bytes → Prop}
  {tolerated : Error → Prop} {i i' : Index} {kind : NameKind} {collection : CollectionId}
  {q : QName} {k k' : Key}

namespace Alike

/-- Under the keys of a name stand two slots with the same data, or none. -/
theorem slots_cases (h : Alike T Eq i i') (hk : Key.lookup? i.symbols kind collection q = some k)
    (hk' : Key.lookup? i'.symbols kind collection q = some k') :
    (i.store.entries.get? k.toBytes = none ∧ i'.store.entries.get? k'.toBytes = none) ∨
    ∃ slot slot', i.store.entries.get? k.toBytes = some slot ∧
      i'.store.entries.get? k'.toBytes = some slot' ∧ slot'.data = slot.data := by
  have hvalue := h.value?_toBytes hk hk'
  rw [Store.value?, Store.value?] at hvalue
  -- The values are the same, so there is a slot for both or for neither.
  cases hslot : i.store.entries.get? k.toBytes with
  | none =>
    rw [hslot] at hvalue
    exact .inl ⟨rfl, Option.map_eq_none_iff.mp hvalue.symm⟩
  | some slot =>
    rw [hslot] at hvalue
    obtain ⟨slot', hslot', hdata⟩ := Option.map_eq_some_iff.mp hvalue.symm
    exact .inr ⟨slot, slot', rfl, hslot', hdata⟩

/-- Work that goes on from the slots under the keys of a name agrees, if it does so where there are
none, and where there are two with the same data. -/
theorem agree_get_bind {α α' : Type} {R : Store → Store → Prop} {P : α → α' → Prop}
    {f : Option Slot → Action Store α} {f' : Option Slot → Action Store α'} (h : Alike T Eq i i')
    (hk : Key.lookup? i.symbols kind collection q = some k)
    (hk' : Key.lookup? i'.symbols kind collection q = some k')
    (hnone : Agree tolerated R P (f none i.store) (f' none i'.store))
    (hsome : ∀ slot slot', i.store.entries.get? k.toBytes = some slot →
      i'.store.entries.get? k'.toBytes = some slot' → slot'.data = slot.data →
      Agree tolerated R P (f (some slot) i.store) (f' (some slot') i'.store)) :
    Agree tolerated R P ((Store.get k.toBytes >>= f) i.store)
      ((Store.get k'.toBytes >>= f') i'.store) := by
  rw [bind_of_ok (Store.get_of_planned (h.calm .get) _),
    bind_of_ok (Store.get_of_planned (h.calm' .get) _)]
  -- The slots are there in both indexes or in neither, with the same data.
  rcases h.slots_cases hk hk' with ⟨hslot, hslot'⟩ | ⟨slot, slot', hslot, hslot', hdata⟩
  · rw [hslot, hslot']
    exact hnone
  · rw [hslot, hslot']
    exact hsome slot slot' hslot hslot' hdata

/-- Writing related values under the keys of a name. -/
theorem agree_write {value value' : Bytes} {x x' : Action Store Nat} (h : Alike T V i i')
    (hk : Key.lookup? i.symbols kind collection q = some k)
    (hk' : Key.lookup? i'.symbols kind collection q = some k')
    (hV : V (some value) (some value')) (hx : i.store.Writes k.toBytes value x)
    (hx' : i'.store.Writes k'.toBytes value' x') :
    Agree tolerated (AlikeWith T V i i') (fun _ _ => True) (x i.store) (x' i'.store) := by
  -- Both stores are read-only, or neither is.
  cases hreadOnly : i.store.readOnly with
  | true =>
    obtain ⟨call, hr⟩ := hx.refused hreadOnly
    obtain ⟨call', hr'⟩ := hx'.refused (h.readOnly.trans hreadOnly)
    rw [hr, hr']
    exact .error rfl h
  | false =>
    obtain ⟨address, s, hr, haccess, hs⟩ := hx.written hreadOnly
    obtain ⟨address', s', hr', haccess', hs'⟩ := hx'.written (h.readOnly.trans hreadOnly)
    rw [hr, hr']
    exact .ok trivial (h.put hk hk' hV hs hs' haccess haccess')

/-! ## Flushing -/

section Flushing

/-- A block is put behind equal values, or refused by both. -/
theorem agree_appendBlock (h : Alike T Eq i i')
    (hk : Key.lookup? i.symbols kind collection q = some k)
    (hk' : Key.lookup? i'.symbols kind collection q = some k') (doc : DocId)
    (order : BlockOrder) (block : Bytes) :
    Agree tolerated (Alike T Eq) Eq (onStore (appendBlock k doc order block) i)
      (onStore (appendBlock k' doc order block) i') := by
  refine agree_onStore (Store.agree_locked (h.free .write) h fun _ => ?_)
  -- Appending writes the same bytes behind the same value in both.
  have happend : Agree tolerated (AlikeWith T Eq i i') Eq
      ((do
        let _ ← Store.append .write k.toBytes block
        return () : Action Store Unit) i.store)
      ((do
        let _ ← Store.append .write k'.toBytes block
        return () : Action Store Unit) i'.store) := by
    refine (h.agree_write hk hk' ?_ (Store.writes_append h.calm block)
      (Store.writes_append h.calm' block)).bind fun _ _ _ _ _ hs => .ok rfl hs
    rw [h.value?_toBytes hk hk']
  cases order with
  | unordered => exact happend
  | ordered =>
    -- For an ordered block the blocks that are there are looked at first.
    refine h.agree_get_bind hk hk' happend fun slot slot' _ _ hdata => ?_
    have hkinds := (Block.scan slot.data).mapError_requireNoBlockOf doc k k'
    have hblocks := congrArg (fun data => (Block.scan data).requireNoBlockOf doc k') hdata
    rw [← hblocks] at hkinds
    exact Agree.ofExcept_bind hkinds h fun _ _ => happend

variable {f f' : Flushing} {name : QName} {names : List QName}

/-- Writing the nodes of a name agrees. -/
theorem agree_flushNodes (h : Flushing.Alike T f f')
    (hk : Key.lookup? f.index.symbols kind collection q = some k)
    (hk' : Key.lookup? f'.index.symbols kind collection q = some k') (nodes : List NodeRef)
    (done : Nat) :
    Agree tolerated (Flushing.Alike T) Eq (flushNodes name k nodes done f)
      (flushNodes name k' nodes done f') := by
  have happend : Agree tolerated _ _ _ _ := h.index.agree_appendBlock hk hk'
    (f.batch.drop name).document.id (f.batch.drop name).order
    (Block.encode (f.batch.drop name).document.id (f.batch.drop name).order
      ((NodeRef.sort nodes).map NodeRef.toEntry))
  unfold flushNodes
  rw [h.batch, h.summary]
  dsimp only
  -- What becomes of batch and summary depends on the outcome only.
  generalize onStore _ f.index = r, onStore _ f'.index = r' at happend
  cases happend with
  | ok answers states => exact .ok answers ⟨states, rfl, rfl⟩
  | error kinds states => exact .error kinds ⟨states, rfl, rfl⟩
  | tolerated cause => exact .tolerated cause

/-- Flushing a name agrees. -/
theorem agree_flushName (hT : SymbolTable.Agreeing tolerated T) (h : Flushing.Alike T f f')
    (name : QName) (done : Nat) :
    Agree tolerated (Flushing.Alike T) Eq (flushName name done f) (flushName name done f') := by
  obtain ⟨hindex, hbatch, hsummary⟩ := h
  obtain ⟨index', batch', progress', summary', reports'⟩ := f'
  obtain rfl : batch' = f.batch := hbatch
  rw [flushName, get_bind, get_bind]
  -- Both get a key; or both fail for causes of one class; or the second has no code left.
  rcases hindex.ofName_cases hT name.kind f.batch.document.collection name with
    ⟨k, k', t, t', hk, hk', halike⟩ | ⟨e, e', t, t', he, he', hkinds, halike⟩ |
      ⟨e', t', he', hcause⟩
  · have hg : Flushing.Alike T { f with index := { f.index with symbols := t } }
        ⟨{ index' with symbols := t' }, f.batch, progress', summary', reports'⟩ :=
      ⟨halike, rfl, hsummary⟩
    rw [bind_of_ok (onIndex_keyOf_eq_ok_iff.mpr ⟨t, hk, rfl⟩),
      bind_of_ok (onIndex_keyOf_eq_ok_iff.mpr ⟨t', hk', rfl⟩), get_bind, get_bind]
    dsimp only
    cases f.batch.nodes? name with
    | none => exact .ok rfl hg
    | some nodes =>
      -- The keys may differ, but each is that of the name.
      exact agree_flushNodes hg (Key.ofName_eq_ok hk).1 (Key.ofName_eq_ok hk').1 nodes done
  · rw [bind_of_error (onIndex_keyOf_eq_error_iff.mpr ⟨t, he, rfl⟩),
      bind_of_error (onIndex_keyOf_eq_error_iff.mpr ⟨t', he', rfl⟩)]
    exact .error hkinds ⟨halike, rfl, hsummary⟩
  · rw [bind_of_error (onIndex_keyOf_eq_error_iff.mpr ⟨t', he', rfl⟩)]
    exact .tolerated hcause

/-- Flushing some names agrees. -/
theorem agree_flushNames (hT : SymbolTable.Agreeing tolerated T) (h : Flushing.Alike T f f')
    (names : List QName) (done : Nat) :
    Agree tolerated (Flushing.Alike T) Eq (flushNames names done f)
      (flushNames names done f') := by
  induction names generalizing f f' done with
  | nil => exact .ok rfl h
  | cons name names ih =>
    exact (agree_flushName hT h name done).bind fun _ _ _ _ _ hs => ih hs (done + 1)

/-- A flush writes the same names, or fails at the same one. -/
theorem agree_flush (hT : SymbolTable.Agreeing tolerated T) (h : Flushing.Alike T f f') :
    Agree tolerated (Flushing.Alike T) Eq (flush f) (flush f') := by
  obtain ⟨hindex, hbatch, hsummary⟩ := h
  obtain ⟨index', batch', progress', summary', reports'⟩ := f'
  obtain rfl : batch' = f.batch := hbatch
  rw [flush, get_bind, get_bind]
  dsimp only
  cases hempty : f.batch.isEmpty with
  | true => exact .ok rfl ⟨hindex, rfl, hsummary⟩
  | false =>
    -- Starting and finishing the progress changes nothing that is compared.
    have hstart : Flushing.Alike T
        { f with progress := Progress.start f.batch.names.length f.index.progressStep }
        ⟨index', f.batch, Progress.start f.batch.names.length index'.progressStep, summary',
          reports'⟩ := ⟨hindex, rfl, hsummary⟩
    show Agree _ _ _ ((flushNames f.batch.names 1 >>= _) _) ((flushNames f.batch.names 1 >>= _) _)
    refine (agree_flushNames hT hstart f.batch.names 1).bind fun _ _ g g' _ hg => ?_
    exact .ok hg.summary.symm ⟨hg.index, hg.batch, hg.summary⟩

end Flushing

/-! ## Removing -/

section Removing

variable {document : Document} {b : Batch}

/-- Equal values are rewritten alike. -/
theorem agree_rewriteValue (h : Alike T Eq i i')
    (hk : Key.lookup? i.symbols kind collection q = some k)
    (hk' : Key.lookup? i'.symbols kind collection q = some k') (doc : DocId)
    (removed : List NodeId) :
    Agree tolerated (AlikeWith T Eq i i') Eq (rewriteValue doc removed k.toBytes i.store)
      (rewriteValue doc removed k'.toBytes i'.store) := by
  -- Without a value an empty one is put there; with one it is rewritten where it is.
  refine h.agree_get_bind hk hk' ?_ fun slot slot' hslot hslot' hdata => ?_
  · exact (h.agree_write hk hk' rfl (Store.writes_put h.calm [])
      (Store.writes_put h.calm' [])).bind fun _ _ _ _ _ hs => .ok rfl hs
  · have hvalues := congrArg (withoutNodes doc removed) hdata
    refine Agree.ofExcept_bind (by rw [hvalues]) h fun value _ => ?_
    exact (h.agree_write hk hk' rfl (Store.writes_update h.calm hslot value)
      (Store.writes_update h.calm' hslot' value)).bind fun _ _ _ _ _ hs => .ok rfl hs

/-- Nodes are removed from equal values. -/
theorem agree_removeNodes (hT : SymbolTable.Agreeing tolerated T) (h : Alike T Eq i i')
    (document : Document) (name : QName) (removed : List NodeId) :
    Agree tolerated (Alike T Eq) Eq (removeNodes document name removed i)
      (removeNodes document name removed i') :=
  h.agree_keyOf_bind hT fun _ _ _ _ hj hk hk' =>
    agree_onStore (Store.agree_locked (hj.free .write) hj fun _ =>
      hj.agree_rewriteValue hk hk' document.id removed)

/-- The indexes are alike, and the same batch is waiting. -/
def WithBatch (T : Interner → Interner → Prop) (x x' : Index × Batch) : Prop :=
  Alike T Eq x.1 x'.1 ∧ x'.2 = x.2

/-- Removing the nodes of some names agrees. -/
theorem agree_removeNames (hT : SymbolTable.Agreeing tolerated T) (h : Alike T Eq i i')
    (names : List QName) (b : Batch) :
    Agree tolerated (WithBatch T) Eq (removeNames names (i, b)) (removeNames names (i', b)) := by
  -- Induction on the names, from whatever alike indexes the first one leaves.
  induction names generalizing i i' b with
  | nil => exact .ok rfl ⟨h, rfl⟩
  | cons name names ih =>
    rw [removeNames]
    dsimp only
    cases b.nodes? name with
    | none => exact ih h b
    | some nodes =>
      have hremove := h.agree_removeNodes hT b.document name (nodes.map (·.node))
      dsimp only
      generalize removeNodes _ _ _ i = r, removeNodes _ _ _ i' = r' at hremove
      cases hremove with
      | ok answers states => exact ih states (b.drop name)
      | error kinds states => exact .error kinds ⟨states, rfl⟩
      | tolerated cause => exact .tolerated cause

/-- A batch is removed name by name, or fails at the same name. -/
theorem agree_removeBatch (hT : SymbolTable.Agreeing tolerated T) (h : Alike T Eq i i')
    (b : Batch) :
    Agree tolerated (WithBatch T) Eq (removeBatch (i, b)) (removeBatch (i', b)) := by
  rw [removeBatch, get_bind, get_bind]
  refine (h.agree_removeNames hT b.names b).bind fun _ _ x x' _ hx => ?_
  exact .ok rfl ⟨hx.1, congrArg Batch.discard hx.2⟩

end Removing

end Alike

end Index

end XmlIndex
