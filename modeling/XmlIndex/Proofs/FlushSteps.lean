import XmlIndex.Index.Update
import XmlIndex.Proofs.KeyFormation
import XmlIndex.Proofs.StoreCalls

/-! # The steps of a flush

A flush writes one name after the other.  A name that is written has got its key, and its
block stands at the end of the value under it (`Index.flushName_eq_ok`).  A name that fails
leaves the values as they were, whatever the reason, and its nodes in the batch
(`Index.flushName_eq_error`).  It cannot fail if its key can be formed, nothing stands in the
way of a change of the store and the block is accepted (`Index.flushName_of_accepts`). -/

namespace XmlIndex

namespace Batch

/-- The bytes of the block that nodes of the batch are written as. -/
def blockOf (b : Batch) (nodes : List NodeRef) : Bytes :=
  Block.encode b.document.id b.order ((NodeRef.sort nodes).map NodeRef.toEntry)

end Batch

namespace Store

/-- A block of a document may be put under a key: an ordered one if the value there has no
fault and no block of the document. -/
def Accepts (s : Store) (key : Key) (doc : DocId) (order : BlockOrder) : Prop :=
  order = .ordered → ∀ value, s.value? key.toBytes = some value →
    (Block.scan value).requireNoBlockOf doc key = .ok ()

theorem SameContents.accepts {s s' : Store} (h : s'.SameContents s) {key : Key} {doc : DocId}
    {order : BlockOrder} (ha : s.Accepts key doc order) : s'.Accepts key doc order :=
  fun ho value hv => ha ho value (h.value? key.toBytes ▸ hv)

end Store

namespace Index

/-! ## One block -/

section Blocks

variable {key : Key} {doc : DocId} {order : BlockOrder} {block : Bytes} {s s' : Store}
  {e : Error}

/-- The last part of `appendBlock`. -/
theorem append_eq_ok_of_bind (h : (do
    let _ ← Store.append .write key.toBytes block
    return () : Action Store Unit) s = .ok () s') :
    s'.SameUpToPlan (s.appended key.toBytes block) := by
  obtain ⟨_, s₁, ha, hs⟩ := Action.bind_eq_ok_iff.mp h
  obtain ⟨_, rfl⟩ := EStateM.Result.ok.inj hs
  exact (Store.append_eq_ok ha).1

theorem append_eq_error_of_bind (h : (do
    let _ ← Store.append .write key.toBytes block
    return () : Action Store Unit) s = .error e s') : s'.SameUpToPlan s ∧ s.Hindered := by
  rcases Action.bind_eq_error_iff.mp h with ha | ⟨_, s₁, _, hs⟩
  · exact Store.append_eq_error ha
  · cases hs

/-- A block is put under a key only with the lock, and if it is accepted. -/
theorem appendBlock_eq_ok (h : appendBlock key doc order block s = .ok () s') :
    s.isFree .write ∧ s.Accepts key doc order ∧
      s'.SameUpToPlan (s.appended key.toBytes block) := by
  obtain ⟨hfree, hbody⟩ := Store.locked_eq_ok h
  refine ⟨hfree, ?_⟩
  -- Only for an ordered block the value is looked at first.
  cases order with
  | unordered =>
    refine ⟨fun hord => ?_, append_eq_ok_of_bind hbody⟩
    cases hord
  | ordered =>
    simp only [BlockOrder.isOrdered, if_true] at hbody
    obtain ⟨slot?, s₁, hget, hrest⟩ := Action.bind_eq_ok_iff.mp hbody
    obtain ⟨rfl, hsame⟩ := Store.get_eq_ok hget
    cases hs : s.entries.get? key.toBytes with
    | none =>
      simp only [hs] at hrest
      refine ⟨fun _ value hv => ?_, (append_eq_ok_of_bind hrest).trans (hsame.appended _ _)⟩
      rw [Store.value?_of_get?_eq_none hs] at hv
      cases hv
    | some slot =>
      simp only [hs] at hrest
      obtain ⟨_, s₂, hcheck, happend⟩ := Action.bind_eq_ok_iff.mp hrest
      obtain ⟨haccept, rfl⟩ := Action.ofExcept_eq_ok_iff.mp hcheck
      refine ⟨fun _ value hv => ?_, (append_eq_ok_of_bind happend).trans (hsame.appended _ _)⟩
      rw [Store.value?_of_get? hs] at hv
      obtain rfl := Option.some.inj hv
      exact haccept

/-- Why a block was not put under a key; the values are as before. -/
theorem appendBlock_eq_error (h : appendBlock key doc order block s = .error e s') :
    s'.SameUpToPlan s ∧ (s.isFree .write = false ∨ s.Hindered ∨
      (order = .ordered ∧ ∃ value, s.value? key.toBytes = some value ∧
        (Block.scan value).requireNoBlockOf doc key = .error e)) := by
  rcases Store.locked_eq_error h with ⟨hfree, rfl⟩ | ⟨_, hbody⟩
  · exact ⟨.refl _, .inl hfree⟩
  · cases order with
    | unordered =>
      obtain ⟨hsame, hhindered⟩ := append_eq_error_of_bind hbody
      exact ⟨hsame, .inr (.inl hhindered)⟩
    | ordered =>
      simp only [BlockOrder.isOrdered, if_true] at hbody
      -- An ordered block needs a look at the value, which may fail as well.
      rcases Action.bind_eq_error_iff.mp hbody with hget | ⟨slot?, s₁, hget, hrest⟩
      · obtain ⟨hsame, hcalm⟩ := Store.get_eq_error hget
        exact ⟨hsame, .inr (.inl (.inr hcalm))⟩
      · obtain ⟨rfl, hsame⟩ := Store.get_eq_ok hget
        cases hs : s.entries.get? key.toBytes with
        | none =>
          simp only [hs] at hrest
          obtain ⟨hsame', hhindered⟩ := append_eq_error_of_bind hrest
          exact ⟨hsame'.trans hsame, .inr (.inl (hsame.hindered hhindered))⟩
        | some slot =>
          simp only [hs] at hrest
          -- The value there refuses the block, or the store fails to append it.
          rcases Action.bind_eq_error_iff.mp hrest with hcheck | ⟨_, s₂, hcheck, happend⟩
          · obtain ⟨hrefuse, rfl⟩ := Action.ofExcept_eq_error_iff.mp hcheck
            have hvalue : s.value? key.toBytes = some slot.data :=
              Store.value?_of_get? hs
            exact ⟨hsame, .inr (.inr ⟨rfl, slot.data, hvalue, hrefuse⟩)⟩
          · obtain ⟨_, rfl⟩ := Action.ofExcept_eq_ok_iff.mp hcheck
            obtain ⟨hsame', hhindered⟩ := append_eq_error_of_bind happend
            exact ⟨hsame'.trans hsame, .inr (.inl (hsame.hindered hhindered))⟩

end Blocks

/-! ## One name -/

section Names

variable {name : QName} {done : Nat} {f f' : Flushing} {nodes : List NodeRef} {e : Error}

/-- The part of `flushName` in which the key is formed. -/
theorem onIndex_keyOf_eq_ok_iff {kind : NameKind} {collection : CollectionId} {k : Key} :
    Action.on (·.index) (fun index (f : Flushing) => { f with index })
        (keyOf kind collection name) f = .ok k f' ↔
      ∃ t, Key.ofName kind collection name f.index.symbols = .ok k t ∧
        f' = { f with index := { f.index with symbols := t } } := by
  rw [Action.on_eq_ok_iff]
  simp only [keyOf, Action.on_eq_ok_iff]
  constructor
  · rintro ⟨_, ⟨t, h, rfl⟩, rfl⟩
    exact ⟨t, h, rfl⟩
  · rintro ⟨t, h, rfl⟩
    exact ⟨_, ⟨t, h, rfl⟩, rfl⟩

theorem onIndex_keyOf_eq_error_iff {kind : NameKind} {collection : CollectionId} :
    Action.on (·.index) (fun index (f : Flushing) => { f with index })
        (keyOf kind collection name) f = .error e f' ↔
      ∃ t, Key.ofName kind collection name f.index.symbols = .error e t ∧
        f' = { f with index := { f.index with symbols := t } } := by
  rw [Action.on_eq_error_iff]
  simp only [keyOf, Action.on_eq_error_iff]
  constructor
  · rintro ⟨_, ⟨t, h, rfl⟩, rfl⟩
    exact ⟨t, h, rfl⟩
  · rintro ⟨t, h, rfl⟩
    exact ⟨_, ⟨t, h, rfl⟩, rfl⟩

/-- A name that is written has its key, and its block stands under it. -/
theorem flushName_eq_ok (hn : f.batch.nodes? name = some nodes)
    (h : flushName name done f = .ok () f') :
    ∃ k, Key.ofName name.kind f.batch.document.collection name f.index.symbols =
        .ok k f'.index.symbols ∧
      f.index.store.isFree .write ∧
      f.index.store.Accepts k f.batch.document.id f.batch.order ∧
      f'.index.store.SameUpToPlan (f.index.store.appended k.toBytes (f.batch.blockOf nodes)) ∧
      f'.batch = f.batch.drop name := by
  obtain ⟨_, _, hget, hrest⟩ := Action.bind_eq_ok_iff.mp h
  obtain ⟨rfl, rfl⟩ := EStateM.Result.ok.inj hget
  -- The key is formed first; that may give codes to the name.
  obtain ⟨k, f₁, hkey, hrest⟩ := Action.bind_eq_ok_iff.mp hrest
  obtain ⟨t, hof, rfl⟩ := onIndex_keyOf_eq_ok_iff.mp hkey
  obtain ⟨_, _, hget, hrest⟩ := Action.bind_eq_ok_iff.mp hrest
  obtain ⟨rfl, rfl⟩ := EStateM.Result.ok.inj hget
  simp only [hn, flushNodes] at hrest
  split at hrest
  · cases hrest
  · next index happend =>
    obtain ⟨_, rfl⟩ := EStateM.Result.ok.inj hrest
    obtain ⟨s', hput, rfl⟩ := Action.on_eq_ok_iff.mp happend
    obtain ⟨hfree, haccept, hsame⟩ := appendBlock_eq_ok hput
    exact ⟨k, hof, hfree, haccept, hsame, rfl⟩

/-- A name that fails leaves the values as they were and its nodes in the batch: either its
key cannot be formed, or its block is not put under the key. -/
theorem flushName_eq_error (hn : f.batch.nodes? name = some nodes)
    (h : flushName name done f = .error e f') :
    f'.index.store.SameUpToPlan f.index.store ∧
      ((Key.ofName name.kind f.batch.document.collection name f.index.symbols =
          .error e f'.index.symbols ∧ f'.batch = f.batch) ∨
        ∃ k, Key.ofName name.kind f.batch.document.collection name f.index.symbols =
            .ok k f'.index.symbols ∧
          f'.batch = (f.batch.drop name).restore name (NodeRef.sort nodes) ∧
          (f.index.store.isFree .write = false ∨ f.index.store.Hindered ∨
            (f.batch.order = .ordered ∧
              ∃ value, f.index.store.value? k.toBytes = some value ∧
                (Block.scan value).requireNoBlockOf f.batch.document.id k = .error e))) := by
  rcases Action.bind_eq_error_iff.mp h with hget | ⟨_, _, hget, hrest⟩
  · cases hget
  obtain ⟨rfl, rfl⟩ := EStateM.Result.ok.inj hget
  -- Without a key nothing is tried, and the batch is not touched.
  rcases Action.bind_eq_error_iff.mp hrest with hkey | ⟨k, f₁, hkey, hrest⟩
  · obtain ⟨t, hof, rfl⟩ := onIndex_keyOf_eq_error_iff.mp hkey
    exact ⟨.refl _, .inl ⟨hof, rfl⟩⟩
  obtain ⟨t, hof, rfl⟩ := onIndex_keyOf_eq_ok_iff.mp hkey
  rcases Action.bind_eq_error_iff.mp hrest with hget | ⟨_, _, hget, hrest⟩
  · cases hget
  obtain ⟨rfl, rfl⟩ := EStateM.Result.ok.inj hget
  simp only [hn, flushNodes] at hrest
  split at hrest
  · next index happend =>
    -- The block was not put there, so the nodes went back into the batch.
    obtain ⟨rfl, rfl⟩ := EStateM.Result.error.inj hrest
    obtain ⟨s', hput, rfl⟩ := Action.on_eq_error_iff.mp happend
    obtain ⟨hsame, hreason⟩ := appendBlock_eq_error hput
    exact ⟨hsame, .inr ⟨k, hof, rfl, hreason⟩⟩
  · cases hrest

/-- A name whose key can be formed and whose block is accepted is written if nothing hinders
it. -/
theorem flushName_of_accepts {k : Key} {t : SymbolTable} (done : Nat)
    (hn : f.batch.nodes? name = some nodes)
    (hof : Key.ofName name.kind f.batch.document.collection name f.index.symbols = .ok k t)
    (ho : f.index.store.Open)
    (haccept : f.index.store.Accepts k f.batch.document.id f.batch.order) :
    ∃ f', flushName name done f = .ok () f' := by
  -- None of the reasons to fail applies.
  cases hflush : flushName name done f with
  | ok a f' => exact ⟨f', rfl⟩
  | error e f' =>
    obtain ⟨_, ⟨hof', _⟩ | ⟨k', hof', _, hreason⟩⟩ := flushName_eq_error hn hflush
    · rw [hof] at hof'
      cases hof'
    · obtain ⟨rfl, _⟩ := EStateM.Result.ok.inj (hof.symm.trans hof')
      rcases hreason with hlocked | hhindered | ⟨hord, value, hvalue, hrefuse⟩
      · rw [ho.free] at hlocked
        cases hlocked
      · exact absurd hhindered ho.not_hindered
      · rw [haccept hord value hvalue] at hrefuse
        cases hrefuse

end Names

end Index

end XmlIndex
