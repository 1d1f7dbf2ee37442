import XmlIndex.Proofs.QueryIsolation
import XmlIndex.Proofs.StoreAccess
import XmlIndex.Proofs.SymbolCoverage
import XmlIndex.Proofs.ValuesByName

/-! # Alike indexes

Two indexes that came about in different ways can have different codes for the same names, and
then different keys.  `Index.Alike T V` compares them by name: their symbol tables are related by
`T`, and under every name stand values related by `V`; their locks and write protection are the
same, and no failure is planned.

If `T` is such that codes are given alike on related tables (`SymbolTable.Agreeing`), then so are
keys formed (`Index.Alike.ofName_cases`), and what is read under a name is related by `V`
(`Index.Alike.agree_readValue`).  A query that makes the same of values related by `V` is
answered alike (`Index.Alike.agree_lookup`, `Index.Alike.agree_join`). -/

namespace XmlIndex

open XmlIndex.Action

namespace Index

theorem keyOf_of_ok {kind : NameKind} {collection : CollectionId} {q : QName} {k : Key} {i : Index}
    {t : SymbolTable} (h : Key.ofName kind collection q i.symbols = .ok k t) :
    keyOf kind collection q i = .ok k { i with symbols := t } :=
  keyOf_eq_ok_iff.mpr ⟨t, h, rfl⟩

theorem keyOf_of_error {kind : NameKind} {collection : CollectionId} {q : QName} {e : Error}
    {i : Index} {t : SymbolTable} (h : Key.ofName kind collection q i.symbols = .error e t) :
    keyOf kind collection q i = .error e { i with symbols := t } :=
  on_eq_error_iff.mpr ⟨t, h, rfl⟩

/-- Under every name the indexes have related values, and the store can be used alike. -/
structure Alike (T : Interner → Interner → Prop) (V : Option Bytes → Option Bytes → Prop)
    (i i' : Index) : Prop where
  symbols : i.symbols.Both T i'.symbols
  named : i.store.KeysNamed i.symbols
  named' : i'.store.KeysNamed i'.symbols
  values : ∀ kind collection q, V (i.store.valueUnder i.symbols kind collection q)
    (i'.store.valueUnder i'.symbols kind collection q)
  free : ∀ mode, i'.store.isFree mode = i.store.isFree mode
  readOnly : i'.store.readOnly = i.store.readOnly
  calm : i.store.Calm
  calm' : i'.store.Calm

/-- The indexes are alike with these stores. -/
def AlikeWith (T : Interner → Interner → Prop) (V : Option Bytes → Option Bytes → Prop)
    (i i' : Index) (s s' : Store) : Prop :=
  Alike T V { i with store := s } { i' with store := s' }

namespace Alike

variable {T : Interner → Interner → Prop} {V : Option Bytes → Option Bytes → Prop}
  {tolerated : Error → Prop} {i i' j : Index} {t t' : SymbolTable} {kind : NameKind}
  {collection : CollectionId} {q : QName} {k k' : Key} {α α' : Type} {P : α → α' → Prop}

/-- Names may get codes in both tables. -/
theorem of_extends (h : Alike T V i i') (ht : t.Extends i.symbols) (ht' : t'.Extends i'.symbols)
    (hT : t.Both T t') : Alike T V { i with symbols := t } { i' with symbols := t' } where
  symbols := hT
  named := fun key hv => (h.named key hv).of_extends ht
  named' := fun key hv => (h.named' key hv).of_extends ht'
  values := fun kind collection q => by
    rw [Store.valueUnder_of_extends h.named ht, Store.valueUnder_of_extends h.named' ht']
    exact h.values kind collection q
  free := h.free
  readOnly := h.readOnly
  calm := h.calm
  calm' := h.calm'

/-- Related values may be put under the keys of one name. -/
theorem put {s s' : Store} {value value' : Bytes} (h : Alike T V i i')
    (hk : Key.lookup? i.symbols kind collection q = some k)
    (hk' : Key.lookup? i'.symbols kind collection q = some k')
    (hV : V (some value) (some value'))
    (hs : ∀ key, s.value? key = if key = k.toBytes then some value else i.store.value? key)
    (hs' : ∀ key, s'.value? key = if key = k'.toBytes then some value' else i'.store.value? key)
    (haccess : s.SameAccess i.store) (haccess' : s'.SameAccess i'.store) :
    Alike T V { i with store := s } { i' with store := s' } where
  symbols := h.symbols
  named := fun key hv => by
    rw [hs] at hv
    split at hv
    · next hkey => exact ⟨kind, collection, q, k, hk, hkey⟩
    · exact h.named key hv
  named' := fun key hv => by
    rw [hs'] at hv
    split at hv
    · next hkey => exact ⟨kind, collection, q, k', hk', hkey⟩
    · exact h.named' key hv
  -- In both indexes it is the value under this one name that has changed.
  values := fun kind' collection' q' => by
    show V (s.valueUnder i.symbols kind' collection' q')
      (s'.valueUnder i'.symbols kind' collection' q')
    rw [Store.valueUnder_change hk hs, Store.valueUnder_change hk' hs']
    split
    · exact hV
    · exact h.values kind' collection' q'
  free := fun mode => by
    rw [haccess.isFree, haccess'.isFree]
    exact h.free mode
  readOnly := haccess'.readOnly.trans (h.readOnly.trans haccess.readOnly.symm)
  calm := haccess.calm h.calm
  calm' := haccess'.calm h.calm'

/-! ## Keys and values -/

/-- The key of a name is formed for both or for neither, unless forming the second one fails for
a tolerated cause. -/
theorem ofName_cases (hT : SymbolTable.Agreeing tolerated T) (h : Alike T V i i')
    (kind : NameKind) (collection : CollectionId) (q : QName) :
    (∃ k k' t t', Key.ofName kind collection q i.symbols = .ok k t ∧
      Key.ofName kind collection q i'.symbols = .ok k' t' ∧
      Alike T V { i with symbols := t } { i' with symbols := t' }) ∨
    (∃ e e' t t', Key.ofName kind collection q i.symbols = .error e t ∧
      Key.ofName kind collection q i'.symbols = .error e' t' ∧ e.kind = e'.kind ∧
      Alike T V { i with symbols := t } { i' with symbols := t' }) ∨
    ∃ e' t', Key.ofName kind collection q i'.symbols = .error e' t' ∧ tolerated e' := by
  have hagree := Key.agree_ofName hT kind collection q h.symbols
  -- Which of the two attempts go through decides what `Agree` says of them.
  cases hk : Key.ofName kind collection q i.symbols with
  | ok k t =>
    -- The first has the key, so the second has it too, or it has run out of codes.
    cases hk' : Key.ofName kind collection q i'.symbols with
    | ok k' t' =>
      rw [hk, hk'] at hagree
      cases hagree with
      | ok _ states =>
        exact .inl ⟨k, k', t, t', rfl, rfl,
          h.of_extends (Key.ofName_eq_ok hk).2 (Key.ofName_eq_ok hk').2 states⟩
    | error e' t' =>
      rw [hk, hk'] at hagree
      cases hagree with
      | tolerated cause => exact .inr (.inr ⟨e', t', rfl, cause⟩)
  | error e t =>
    -- The first has none; then the second cannot have one.
    cases hk' : Key.ofName kind collection q i'.symbols with
    | ok k' t' =>
      rw [hk, hk'] at hagree
      cases hagree
    | error e' t' =>
      rw [hk, hk'] at hagree
      cases hagree with
      | error kinds states =>
        exact .inr (.inl ⟨e, e', t, t', rfl, rfl, kinds,
          h.of_extends (Key.ofName_eq_error hk) (Key.ofName_eq_error hk') states⟩)
      | tolerated cause => exact .inr (.inr ⟨e', t', rfl, cause⟩)

theorem agree_onStore {x : Action Store α} {x' : Action Store α'}
    (h : Agree tolerated (AlikeWith T V i i') P (x i.store) (x' i'.store)) :
    Agree tolerated (Alike T V) P (onStore x i) (onStore x' i') :=
  Agree.on h fun _ _ hs => hs

/-- Actions that need the key of a name agree if they do with the keys that the name has in both
indexes. -/
theorem agree_keyOf_bind (hT : SymbolTable.Agreeing tolerated T) (h : Alike T V i i')
    {x : Key → Action Index α} {x' : Key → Action Index α'}
    (hx : ∀ k k' j j', Alike T V j j' → Key.lookup? j.symbols kind collection q = some k →
      Key.lookup? j'.symbols kind collection q = some k' →
      Agree tolerated (Alike T V) P (x k j) (x' k' j')) :
    Agree tolerated (Alike T V) P ((keyOf kind collection q >>= x) i)
      ((keyOf kind collection q >>= x') i') := by
  -- Only where both keys are formed does the work behind them begin.
  rcases h.ofName_cases hT kind collection q with
    ⟨k, k', t, t', hk, hk', halike⟩ | ⟨e, e', t, t', he, he', hkinds, halike⟩ |
      ⟨e', t', he', hcause⟩
  · rw [bind_of_ok (keyOf_of_ok hk), bind_of_ok (keyOf_of_ok hk')]
    exact hx k k' _ _ halike (Key.ofName_eq_ok hk).1 (Key.ofName_eq_ok hk').1
  · rw [bind_of_error (keyOf_of_error he), bind_of_error (keyOf_of_error he')]
    exact .error hkinds halike
  · rw [bind_of_error (keyOf_of_error he')]
    exact .tolerated hcause

/-- Under the keys of a name stand related values. -/
theorem value?_toBytes (h : Alike T V i i')
    (hk : Key.lookup? i.symbols kind collection q = some k)
    (hk' : Key.lookup? i'.symbols kind collection q = some k') :
    V (i.store.value? k.toBytes) (i'.store.value? k'.toBytes) := by
  have hvalues := h.values kind collection q
  rwa [Store.valueUnder_of_lookup? hk, Store.valueUnder_of_lookup? hk'] at hvalues

/-- Under a name related values are read. -/
theorem agree_readValue (hT : SymbolTable.Agreeing tolerated T) (h : Alike T V i i')
    (kind : NameKind) (collection : CollectionId) (q : QName) :
    Agree tolerated (Alike T V) V ((keyOf kind collection q >>= readValue) i)
      ((keyOf kind collection q >>= readValue) i') := by
  refine h.agree_keyOf_bind hT fun k k' j j' hj hk hk' => ?_
  -- What is compared are the data under the two keys, since the addresses may differ.
  refine Agree.bind (P := fun slot? slot?' => V (slot?.map (·.data)) (slot?'.map (·.data)))
    (agree_onStore (Store.agree_locked (hj.free .read) hj fun _ => ?_))
    fun _ _ _ _ hslots hl => .ok hslots hl
  rw [Store.get_of_planned (hj.calm .get), Store.get_of_planned (hj.calm' .get)]
  exact .ok (hj.value?_toBytes hk hk') hj

/-! ## Queries -/

section Queries

variable {name : QName} {docs : DocumentSet}

theorem agree_read (hT : SymbolTable.Agreeing tolerated T)
    {visit : Findings → Block → Except Error Findings}
    (hvisit : ∀ value? value?', V value? value?' → SameVisit visit value? value?')
    (c : CollectionId) (j j' : Index) (h : Alike T V j j') :
    Agree tolerated (Alike T V) (SameVisit visit) ((keyOf kind c name >>= readValue) j)
      ((keyOf kind c name >>= readValue) j') := by
  have hread := h.agree_readValue hT kind c name
  generalize (keyOf kind c name >>= readValue) j = r,
    (keyOf kind c name >>= readValue) j' = r' at hread
  cases hread with
  | ok answers states => exact .ok (hvisit _ _ answers) states
  | error kinds states => exact .error kinds states
  | tolerated cause => exact .tolerated cause

/-- A lookup that makes the same of related values is answered alike. -/
theorem agree_lookup (hT : SymbolTable.Agreeing tolerated T) (h : Alike T V i i')
    {select? : Option Selector}
    (hvisit : ∀ value? value?', V value? value?' →
      SameVisit (Findings.addBlock kind select? docs) value? value?') :
    Agree tolerated (Alike T V) Eq (lookup kind docs name select? i)
      (lookup kind docs name select? i') :=
  Index.agree_lookup (fun c _ j j' => agree_read hT hvisit c j j') h

/-- So is a join. -/
theorem agree_join (hT : SymbolTable.Agreeing tolerated T) (h : Alike T V i i') {axis : Axis}
    {context : NodeSet} {contextId? : Option UInt32}
    (hvisit : ∀ value? value?', V value? value?' →
      SameVisit (Findings.joinBlock kind axis docs context contextId?) value? value?') :
    Agree tolerated (Alike T V) Eq (join kind axis docs name context contextId? i)
      (join kind axis docs name context contextId? i') :=
  Index.agree_join (fun c _ j j' => agree_read hT hvisit c j j') h

end Queries

end Alike

end Index

end XmlIndex
