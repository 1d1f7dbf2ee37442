import XmlIndex.Proofs.BatchRemains
import XmlIndex.Proofs.BlockRewriting
import XmlIndex.Proofs.StoreChanges

/-! # The steps of a removal

Taking nodes out of a document changes the value under one key; a removal that fails changes
none (`Index.removeNodes_eq_ok`, `Index.removeNodes_eq_error`).  Removing a batch is that for
one name after the other: it goes on as long as it succeeds, and what it has done stays done
(`Index.removeNames_eq_ok`, `Index.removeNames_eq_error`). -/

namespace XmlIndex

namespace Store

/-- The store with the value under a key replaced at its address; a key without a value gets it
at a new one. -/
def replaced (s : Store) (key value : Bytes) : Store :=
  match s.entries.get? key with
  | none => s.place key value
  | some slot => s.updated slot.address key value

/-- Replacing a value leaves the other slots. -/
theorem get?_replaced (s : Store) (key value key' : Bytes) :
    (s.replaced key value).entries.get? key' =
      if key' = key then some ⟨(s.address? key).getD s.nextAddress, value⟩
      else s.entries.get? key' := by
  rw [replaced, address?]
  cases s.entries.get? key with
  | none => exact SortedMap.get?_insert_eq ..
  | some slot => exact SortedMap.get?_insert_eq ..

/-- Replacing a value keeps the contents the same. -/
theorem SameContents.replaced {s s' : Store} (h : s'.SameContents s) (key value : Bytes) :
    (s'.replaced key value).SameContents (s.replaced key value) := by
  rw [Store.replaced, Store.replaced, ← h.entries]
  -- The same slot is found in both, or none.
  cases s'.entries.get? key with
  | none => exact h.place key value
  | some slot =>
    refine ⟨?_, h.nextAddress, h.name, h.timeout, h.backing⟩
    show s'.entries.insert key _ = s.entries.insert key _
    rw [h.entries]

/-- Replacing a value leaves the other values. -/
theorem value?_replaced (s : Store) (key value key' : Bytes) :
    (s.replaced key value).value? key' = if key' = key then some value else s.value? key' := by
  rw [value?, get?_replaced, value?]
  split <;> rfl

end Store

namespace Index

/-! ## One name -/

section Nodes

variable {document : Document} {name : QName} {removed : List NodeId} {i i' : Index} {e : Error}

/-- There is nothing to take out of an empty value. -/
theorem withoutNodes_nil (doc : DocId) (removed : List NodeId) :
    withoutNodes doc removed [] = .ok [] :=
  withoutNodes_eq Block.intact_nil doc removed

/-- The part of `removeNodes` that works on the store. -/
def rewriteValue (doc : DocId) (removed : List NodeId) (key : Bytes) : Action Store Unit := do
  match ← Store.get key with
  | none =>
    let _ ← Store.put .write key []
  | some slot =>
    let value ← Action.ofExcept (withoutNodes doc removed slot.data)
    let _ ← Store.update .write slot.address key value

/-- A value that is rewritten is replaced by what is left of it. -/
theorem rewriteValue_eq_ok {doc : DocId} {key : Bytes} {s s' : Store}
    (h : rewriteValue doc removed key s = .ok () s') :
    ∃ value, withoutNodes doc removed ((s.value? key).getD []) = .ok value ∧
      s'.SameUpToPlan (s.replaced key value) := by
  obtain ⟨slot?, s₁, hget, hrest⟩ := Action.bind_eq_ok_iff.mp h
  obtain ⟨rfl, hsame⟩ := Store.get_eq_ok hget
  simp only [Store.value?, Store.replaced]
  cases hs : s.entries.get? key with
  | none =>
    simp only [hs] at hrest
    obtain ⟨_, s₂, hput, hdone⟩ := Action.bind_eq_ok_iff.mp hrest
    obtain ⟨_, rfl⟩ := EStateM.Result.ok.inj hdone
    -- Without a value the empty one is put there, as if it had been stored.
    exact ⟨[], withoutNodes_nil doc removed, (Store.put_eq_ok hput).trans (hsame.place key [])⟩
  | some slot =>
    simp only [hs] at hrest
    obtain ⟨value, s₂, hsplit, hwrite⟩ := Action.bind_eq_ok_iff.mp hrest
    obtain ⟨hvalue, rfl⟩ := Action.ofExcept_eq_ok_iff.mp hsplit
    obtain ⟨_, s₃, hupdate, hdone⟩ := Action.bind_eq_ok_iff.mp hwrite
    obtain ⟨_, rfl⟩ := EStateM.Result.ok.inj hdone
    exact ⟨value, hvalue,
      (Store.update_eq_ok hupdate).1.trans (hsame.updated slot.address key value)⟩

/-- A rewrite that fails leaves the store. -/
theorem rewriteValue_eq_error {doc : DocId} {key : Bytes} {s s' : Store}
    (h : rewriteValue doc removed key s = .error e s') : s'.SameUpToPlan s := by
  rcases Action.bind_eq_error_iff.mp h with hget | ⟨slot?, s₁, hget, hrest⟩
  · exact (Store.get_eq_error hget).1
  obtain ⟨rfl, hsame⟩ := Store.get_eq_ok hget
  -- Each call before the last one only reads.
  cases hs : s.entries.get? key with
  | none =>
    simp only [hs] at hrest
    rcases Action.bind_eq_error_iff.mp hrest with hput | ⟨_, _, _, hdone⟩
    · exact (Store.put_eq_error hput).1.trans hsame
    · cases hdone
  | some slot =>
    simp only [hs] at hrest
    rcases Action.bind_eq_error_iff.mp hrest with hsplit | ⟨value, s₂, hsplit, hwrite⟩
    -- The value could not be decoded, and was not written.
    · obtain ⟨_, rfl⟩ := Action.ofExcept_eq_error_iff.mp hsplit
      exact hsame
    obtain ⟨_, rfl⟩ := Action.ofExcept_eq_ok_iff.mp hsplit
    rcases Action.bind_eq_error_iff.mp hwrite with hupdate | ⟨_, _, _, hdone⟩
    · have hslot : s₂.entries.get? key = some slot := by rw [hsame.entries, hs]
      exact (Store.update_eq_error hslot hupdate).1.trans hsame
    · cases hdone

/-- A removal forms the key of its name and replaces the value under it. -/
theorem removeNodes_replaces (h : removeNodes document name removed i = .ok () i') :
    ∃ k value, Key.ofName name.kind document.collection name i.symbols = .ok k i'.symbols ∧
      withoutNodes document.id removed ((i.store.value? k.toBytes).getD []) = .ok value ∧
      i'.store.SameUpToPlan (i.store.replaced k.toBytes value) := by
  obtain ⟨k, i₁, hkey, hrest⟩ := Action.bind_eq_ok_iff.mp h
  obtain ⟨t, hof, rfl⟩ := keyOf_eq_ok_iff.mp hkey
  obtain ⟨s', hlocked, rfl⟩ := Action.on_eq_ok_iff.mp hrest
  obtain ⟨value, hvalue, hstore⟩ := rewriteValue_eq_ok (Store.locked_eq_ok hlocked).2
  exact ⟨k, value, hof, hvalue, hstore⟩

/-- The values after a removal. -/
theorem removeNodes_eq_ok (h : removeNodes document name removed i = .ok () i') :
    ∃ k value, Key.ofName name.kind document.collection name i.symbols = .ok k i'.symbols ∧
      withoutNodes document.id removed ((i.store.value? k.toBytes).getD []) = .ok value ∧
      ∀ key, i'.store.value? key =
        if key = k.toBytes then some value else i.store.value? key := by
  obtain ⟨k, value, hof, hvalue, hstore⟩ := removeNodes_replaces h
  refine ⟨k, value, hof, hvalue, fun key => ?_⟩
  rw [hstore.value?, Store.value?_replaced]

/-- A removal that fails changes no value. -/
theorem removeNodes_eq_error (h : removeNodes document name removed i = .error e i') :
    i'.store.SameUpToPlan i.store ∧
      i'.symbols =
        Action.stateOf (Key.ofName name.kind document.collection name i.symbols) := by
  -- It fails before it has a key, or at the store.
  rcases Action.bind_eq_error_iff.mp h with hkey | ⟨k, i₁, hkey, hrest⟩
  · obtain ⟨t, hof, rfl⟩ := Action.on_eq_error_iff.mp hkey
    refine ⟨.refl _, ?_⟩
    rw [hof]
    rfl
  obtain ⟨t, hof, rfl⟩ := keyOf_eq_ok_iff.mp hkey
  obtain ⟨s', hlocked, rfl⟩ := Action.on_eq_error_iff.mp hrest
  refine ⟨?_, by rw [hof]; rfl⟩
  rcases Store.locked_eq_error hlocked with ⟨_, hs⟩ | ⟨_, hbody⟩
  · show s'.SameUpToPlan i.store
    rw [hs]
    exact .refl _
  · exact rewriteValue_eq_error hbody

end Nodes

/-! ## The names of a batch -/

/-- The nodes of these names of a batch are removed, one name after the other. -/
inductive Removals (b : Batch) : List QName → Index → Index → Prop
  | nil {i : Index} : Removals b [] i i
  | cons {q : QName} {names : List QName} {nodes : List NodeRef} {i i₁ i' : Index}
      (known : b.nodes? q = some nodes)
      (removed : removeNodes b.document q (nodes.map (·.node)) i = .ok () i₁)
      (rest : Removals b names i₁ i') : Removals b (q :: names) i i'

section Names

variable {b b' b'' : Batch} {names : List QName} {i i' : Index} {e : Error}

/-- Names are removed one after the other. -/
theorem removeNames_cons (name : QName) (names : List QName) :
    removeNames (name :: names) = removeNames [name] >>= fun _ => removeNames names := by
  funext ⟨i, b⟩
  change _ = EStateM.bind (removeNames [name]) (fun _ => removeNames names) (i, b)
  simp only [removeNames, EStateM.bind]
  cases b.nodes? name with
  | none => rfl
  | some nodes =>
    dsimp only
    cases removeNodes b.document name (nodes.map (·.node)) i <;> rfl

/-- One name is removed by taking its nodes out of the document; then it leaves the batch. -/
theorem removeNames_singleton {b : Batch} {q : QName} {nodes : List NodeRef}
    (h : b.nodes? q = some nodes) (i : Index) :
    removeNames [q] (i, b) =
      match removeNodes b.document q (nodes.map (·.node)) i with
      | .ok () i' => .ok () (i', b.drop q)
      | .error e i' => .error e (i', b) := by
  simp only [removeNames, h]
  cases removeNodes b.document q (nodes.map (·.node)) i <;> rfl

/-- Removing names that the batch has is one removal after the other. -/
theorem removeNames_eq_ok (hb : b.StillHas b' names)
    (h : removeNames names (i, b') = .ok () (i', b'')) : Removals b names i i' := by
  induction names generalizing i b' with
  | nil =>
    obtain ⟨_, hs⟩ := EStateM.Result.ok.inj h
    obtain ⟨rfl, _⟩ := Prod.mk.inj hs
    exact .nil
  | cons q names ih =>
    -- The batch still has the nodes it had at the beginning.
    obtain ⟨nodes, hknown, hnodes⟩ := hb.nodes q (.head _)
    simp only [removeNames, hnodes] at h
    split at h
    · cases h
    · next i₁ hremove =>
      rw [hb.document] at hremove
      exact .cons hknown hremove (ih hb.drop_front h)

/-- If a removal fails, those in front of it are done. -/
theorem removeNames_eq_error (hb : b.StillHas b' names)
    (h : removeNames names (i, b') = .error e (i', b'')) :
    ∃ done q waiting i₁ nodes, names = done ++ q :: waiting ∧ Removals b done i i₁ ∧
      b.nodes? q = some nodes ∧
      removeNodes b.document q (nodes.map (·.node)) i₁ = .error e i' := by
  -- Induction on the names: the first fails, or it is done and a later one does.
  induction names generalizing i b' with
  | nil => cases h
  | cons q names ih =>
    obtain ⟨nodes, hknown, hnodes⟩ := hb.nodes q (.head _)
    simp only [removeNames, hnodes] at h
    split at h
    · next hremove =>
      obtain ⟨rfl, hs⟩ := EStateM.Result.error.inj h
      obtain ⟨rfl, _⟩ := Prod.mk.inj hs
      rw [hb.document] at hremove
      exact ⟨[], q, names, i, nodes, rfl, .nil, hknown, hremove⟩
    · next i₁ hremove =>
      rw [hb.document] at hremove
      obtain ⟨done, q', waiting, i₂, nodes', rfl, hdone, hknown', herror⟩ := ih hb.drop_front h
      exact ⟨q :: done, q', waiting, i₂, nodes', rfl, .cons hknown hremove hdone, hknown', herror⟩

/-- A batch is removed name by name. -/
theorem removeBatch_eq_ok (h : removeBatch (i, b) = .ok () (i', b')) :
    Removals b b.names i i' := by
  obtain ⟨_, _, hget, hrest⟩ := Action.bind_eq_ok_iff.mp h
  obtain ⟨rfl, rfl⟩ := EStateM.Result.ok.inj hget
  obtain ⟨_, ⟨i₁, b₁⟩, hnames, hdone⟩ := Action.bind_eq_ok_iff.mp hrest
  obtain ⟨_, hs⟩ := EStateM.Result.ok.inj hdone
  obtain ⟨rfl, _⟩ := Prod.mk.inj hs
  exact removeNames_eq_ok (b.stillHas_self) hnames

/-- A removal of a batch that fails has removed the names in front of one. -/
theorem removeBatch_eq_error (h : removeBatch (i, b) = .error e (i', b')) :
    ∃ done q waiting i₁ nodes, b.names = done ++ q :: waiting ∧ Removals b done i i₁ ∧
      b.nodes? q = some nodes ∧
      removeNodes b.document q (nodes.map (·.node)) i₁ = .error e i' := by
  rcases Action.bind_eq_error_iff.mp h with hget | ⟨_, _, hget, hrest⟩
  · cases hget
  obtain ⟨rfl, rfl⟩ := EStateM.Result.ok.inj hget
  rcases Action.bind_eq_error_iff.mp hrest with hnames | ⟨_, _, _, hdone⟩
  · exact removeNames_eq_error (b.stillHas_self) hnames
  · cases hdone

end Names

end Index

end XmlIndex
