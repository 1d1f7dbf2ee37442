import XmlIndex.Collection.Record
import XmlIndex.Proofs.KeyOrder
import XmlIndex.Proofs.OpenCalls
import XmlIndex.Proofs.SymbolRoom
import XmlIndex.Proofs.WireReading

/-! # What a key identifies

A key is formed while the table of codes goes on growing.  The codes it has are never given to
another text, so it stays the key of its name: at any later time its bytes are those of another key
only if the other one is of the same family, the same collection and the same name
(`Key.toBytes_eq_iff_of_lookup?`), and the table gives the name back (`Key.Tells`).

A key starts with its family and its collection, and its bytes never start as those of another
family or collection do.  This is why dropping a collection by these beginnings takes all its keys
and no other ones. -/

namespace XmlIndex

/-! ## Tables that grow -/

namespace SymbolTable

/-- A call that may give out codes. -/
inductive Call where
  | symbol (localName : String)
  | namespaceSymbol (uri : String)
  | key (kind : NameKind) (collection : CollectionId) (name : QName)

/-- The table after a call, whether that has failed or not. -/
def Call.leave (t : SymbolTable) : Call → SymbolTable
  | .symbol localName => Action.stateOf (SymbolTable.symbol localName t)
  | .namespaceSymbol uri => Action.stateOf (SymbolTable.namespaceSymbol uri t)
  | .key kind collection name => Action.stateOf (Key.ofName kind collection name t)

/-- The table after some calls. -/
def after (t : SymbolTable) (calls : List Call) : SymbolTable := calls.foldl Call.leave t

theorem Call.extends_leave (t : SymbolTable) (call : Call) : (call.leave t).Extends t := by
  -- Forming a code adds at most one text, and takes none away.
  cases call with
  | symbol localName =>
    rw [leave]
    cases h : SymbolTable.symbol localName t with
    | ok c t' => exact (symbol_eq_ok h).2
    | error e t' =>
      obtain rfl := symbol_eq_error h
      exact .refl _
  | namespaceSymbol uri =>
    rw [leave]
    cases h : SymbolTable.namespaceSymbol uri t with
    | ok c t' => exact (namespaceSymbol_eq_ok h).2
    | error e t' =>
      obtain rfl := namespaceSymbol_eq_error h
      exact .refl _
  | key kind collection name => exact extends_stateOf_ofName kind collection name t

/-- No code is taken back. -/
theorem extends_after (t : SymbolTable) (calls : List Call) : (t.after calls).Extends t := by
  induction calls generalizing t with
  | nil => exact .refl t
  | cons call calls ih => exact (ih (call.leave t)).trans (call.extends_leave t)

end SymbolTable

/-! ## Names of keys -/

namespace Key

variable {t t₁ : SymbolTable} {kind kind' : NameKind} {collection collection' : CollectionId}
  {name name' : QName} {k k' : Key}

/-- What a key tells of the name it was formed of, with the codes of a table. -/
structure Tells (k : Key) (t : SymbolTable) (kind : NameKind) (collection : CollectionId)
    (name : QName) : Prop where
  readable : ofBytes k.toBytes = .ok k
  kind_eq : k.kind = kind
  collection_eq : k.collection = collection
  codes : kind ≠ .attrId → ∃ symbol ns, k.symbols? = some (symbol, ns) ∧
    t.name? symbol = some name.localName ∧ t.namespace? ns = some name.namespaceUri
  text : kind = .attrId → ∃ bs, k.localName? = some bs ∧ Bytes.decodeText? bs = some name.localName

theorem tells_of_lookup? (h : lookup? t kind collection name = some k) :
    k.Tells t kind collection name where
  readable := ofBytes_toBytes k
  kind_eq := (kind_of_lookup? h).1
  collection_eq := (kind_of_lookup? h).2
  codes hk := codes_of_lookup? hk h
  text hk := by
    subst hk
    obtain rfl := Option.some.inj h
    exact ⟨_, rfl, Bytes.decodeText?_ofText name.localName⟩

theorem sameHeading_iff : SameHeading kind name name' ↔
    name.localName = name'.localName ∧ (kind = .attrId ∨ name.namespaceUri = name'.namespaceUri) :=
  and_congr_right' Decidable.or_iff_not_imp_left.symm

/-- Under one table keys are equal only for what they identify. -/
theorem toBytes_eq_iff_of_lookup? (h : lookup? t kind collection name = some k)
    (h' : lookup? t kind' collection' name' = some k') :
    k.toBytes = k'.toBytes ↔
      kind = kind' ∧ collection = collection' ∧ SameHeading kind name name' := by
  constructor
  · intro hbytes
    -- The bytes determine the key, and the table the name.
    obtain rfl := toBytes_inj hbytes
    exact lookup?_inj h h'
  · rintro ⟨rfl, rfl, hheading⟩
    rw [lookup?_of_sameHeading hheading, h'] at h
    rw [Option.some.inj h]

end Key

/-! ## Dropping a collection -/

namespace Index

variable {collection : CollectionId} {count : Nat} {i i' : Index} {s s' : Store}

/-- A key is gone exactly if it is of the collection. -/
theorem Cleared.get?_toBytes (h : Cleared NameKind.all collection count s s') (k : Key) :
    s'.entries.get? k.toBytes =
      if k.collection = collection then none else s.entries.get? k.toBytes := by
  split
  · next hc => exact h.gone _ (keysOf_toBytes.mpr ⟨mem_all k.kind, hc⟩)
  · next hc => exact h.kept _ fun hkey => hc (keysOf_toBytes.mp hkey).2

/-- The keys of records start with a byte that stands for no family. -/
theorem not_keysOf_keyMark {kinds : List NameKind} (bs : Bytes) :
    ¬ KeysOf kinds collection (Record.keyMark :: bs) := by
  rintro ⟨kind, -, hprefix⟩
  obtain ⟨rest, hrest⟩ := List.isPrefixOf_iff_prefix.mp hprefix
  have hfirst : kind.toByte = Record.keyMark := (List.cons.inj hrest).1
  cases kind <;> exact absurd hfirst (by decide)

end Index

namespace Key

open Index (Cleared dropCollection)

variable {t t₁ : SymbolTable} {kind : NameKind} {collection : CollectionId} {name : QName}
  {k : Key}

/-- A key formed of a name identifies the name within its family and its collection, whatever codes
are given out before, between and afterwards.

It is equal to another such key if and only if family, collection and local name are equal, and the
namespace where the family looks at it; it tells what it was formed of; it starts with the head of
its own family and collection only; and keys are ordered by family, collection and name.  So
dropping a collection removes its keys, those of all families, and nothing else. -/
theorem ofName_identifies (h : ofName kind collection name t = .ok k t₁) :
    (∀ between kind' collection' name' k' t₂,
      ofName kind' collection' name' (t₁.after between) = .ok k' t₂ →
      (k.toBytes = k'.toBytes ↔ kind = kind' ∧ collection = collection' ∧
        name.localName = name'.localName ∧
        (kind = .attrId ∨ name.namespaceUri = name'.namespaceUri)) ∧
      compare k.toBytes k'.toBytes =
        ((compare kind kind').then (compare collection collection')).then (k.compareNames k')) ∧
    (∀ later, k.Tells (t₁.after later) kind collection name) ∧
    (∀ kind' collection', (head kind' collection').isPrefixOf k.toBytes ↔
      kind = kind' ∧ collection = collection') ∧
    ∀ (i : Index) (dropped : CollectionId),
      (i.store.Open → ∃ count i', dropCollection dropped i = .ok count i') ∧
      ∀ count i', dropCollection dropped i = .ok count i' →
        Cleared NameKind.all dropped count i.store i'.store ∧
        (∀ k' : Key, i'.store.entries.get? k'.toBytes =
          if k'.collection = dropped then none else i.store.entries.get? k'.toBytes) ∧
        ∀ bs, i'.store.entries.get? (Record.keyMark :: bs) =
          i.store.entries.get? (Record.keyMark :: bs) := by
  have hlookup := (ofName_eq_ok h).1
  obtain ⟨hkind, hcollection⟩ := kind_of_lookup? hlookup
  refine ⟨fun between kind' collection' name' k' t₂ h' => ?_, fun later => ?_,
    fun kind' collection' => ?_, fun i dropped => ⟨fun ho => ?_, fun count i' hdrop => ?_⟩⟩
  · -- The table in the end has the codes of both names.
    obtain ⟨hlookup', hext⟩ := ofName_eq_ok h'
    have hboth := lookup?_of_extends (hext.trans (t₁.extends_after between)) hlookup
    obtain ⟨hkind', hcollection'⟩ := kind_of_lookup? hlookup'
    refine ⟨?_, ?_⟩
    · rw [toBytes_eq_iff_of_lookup? hboth hlookup', sameHeading_iff]
    · rw [compare_toBytes, hkind, hcollection, hkind', hcollection']
  · exact tells_of_lookup? (lookup?_of_extends (t₁.extends_after later) hlookup)
  · rw [head_isPrefixOf_toBytes, hkind, hcollection]
  · exact Index.exists_dropCollection ho dropped
  · have hcleared := (Index.dropCollection_eq_ok hdrop).2
    exact ⟨hcleared, hcleared.get?_toBytes,
      fun bs => hcleared.kept _ (Index.not_keysOf_keyMark bs)⟩

/-- The name of the elements with a title. -/
def title : QName := { localName := "title", namespaceUri := "urn:books" }

/-- The key of an element stays the key of its name while other names get codes, and it is not that
of an attribute found by the same local name, but comes before it. -/
theorem ofName_identifies_title :
    ∃ k t, ofName .element 3 title .empty = .ok k t ∧
      k.Tells (t.after [.symbol "note", .key .attr 4 title]) .element 3 title ∧
      k.toBytes ≠ (verbatim 3 "title").toBytes ∧
      compare k.toBytes (verbatim 3 "title").toBytes = .lt := by
  have hroom : SymbolTable.empty.HasRoomFor [title] :=
    ⟨Interner.hasRoomFor_empty (by decide), Interner.hasRoomFor_empty (by decide)⟩
  obtain ⟨k, t, hk, -⟩ := exists_ofName 3 hroom
  -- The key of an attribute id holds the name itself and needs no codes.
  obtain ⟨hidentifies, htells, -⟩ := ofName_identifies hk
  obtain ⟨hbytes, horder⟩ := hidentifies [.symbol "note"] .attrId 3 title _ _ rfl
  refine ⟨k, t, hk, htells _, fun heq => ?_, horder⟩
  exact absurd (hbytes.mp heq).1 (by decide)

end Key

end XmlIndex
