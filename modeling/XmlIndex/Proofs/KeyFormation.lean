import XmlIndex.Key
import XmlIndex.Proofs.ActionSteps

/-! # Keys and their names

Codes are only ever added to a symbol table (`SymbolTable.Extends`).  `Key.lookup?` is the key
of a name in a table that has its codes; forming a key comes down to it, in the table with the
codes that the name was given (`Key.ofName_eq_ok`, `Key.ofName_of_lookup?`).

A key tells what it was made of: its bytes are read back as the key (`Key.ofBytes_toBytes`),
and one table gives one key to two names only if they agree in what the family looks at
(`Key.lookup?_inj`). -/

namespace XmlIndex

/-! ## Codes -/

namespace Interner

variable {t t' : Interner} {s s' : String} {c : UInt16}

/-- All codes given in `t` are given in `t'`. -/
def Extends (t' t : Interner) : Prop := ∀ s c, t.code? s = some c → t'.code? s = some c

/-- A text that is added has the next code, and the others have theirs. -/
theorem code?_push (t : Interner) (s s' : String) (new : t.code? s = none)
    (room : t.texts.size + 1 < UInt16.size) :
    (t.push s new room).code? s' =
      if s = s' then some (UInt16.ofNat (t.texts.size + 1)) else t.code? s' := by
  simp only [code?, push, Std.HashMap.getElem?_insert, beq_iff_eq]

/-- A text that has a code is answered with it. -/
theorem intern_of_code? (h : t.code? s = some c) : intern s t = .ok c t := by
  unfold intern
  split
  · next h' =>
    rw [h] at h'
    obtain rfl := Option.some.inj h'
    rfl
  · next h' =>
    rw [h] at h'
    cases h'

/-- Whoever asks for a code gets one that the table has from then on, and no code changes. -/
theorem intern_eq_ok (h : intern s t = .ok c t') : t'.code? s = some c ∧ t'.Extends t := by
  unfold intern at h
  split at h
  · next hc =>
    obtain ⟨rfl, rfl⟩ := EStateM.Result.ok.inj h
    exact ⟨hc, fun _ _ h => h⟩
  · next hnew =>
    split at h
    · obtain ⟨rfl, rfl⟩ := EStateM.Result.ok.inj h
      refine ⟨by rw [code?_push, if_pos rfl], fun s' c' h' => ?_⟩
      -- A text that had a code before is not the one that is new.
      have hne : s ≠ s' := by
        rintro rfl
        rw [hnew] at h'
        cases h'
      rw [code?_push, if_neg hne, h']
    · cases h

/-- A table that is full stays as it is. -/
theorem intern_eq_error {e : Error} (h : intern s t = .error e t') : t' = t := by
  unfold intern at h
  split at h
  · cases h
  · split at h
    · cases h
    · exact (EStateM.Result.error.inj h).2.symm

/-- A code stands for one text. -/
theorem text?_of_code? (h : t.code? s = some c) : t.text? c = some s := by
  obtain ⟨hpos, htext⟩ := (t.codes_iff s c).mp h
  rw [text?, if_neg (by omega), htext]

/-- Codes are counted from 1 on. -/
theorem ne_zero_of_code? (h : t.code? s = some c) : c ≠ 0 := by
  rintro rfl
  exact absurd ((t.codes_iff s 0).mp h).1 (by decide)

/-- Two texts do not have one code. -/
theorem code?_inj (h : t.code? s = some c) (h' : t.code? s' = some c) : s = s' := by
  have htext := text?_of_code? h
  rw [text?_of_code? h'] at htext
  exact (Option.some.inj htext).symm

end Interner

namespace SymbolTable

variable {t t' : SymbolTable} {s : String} {c : UInt16}

/-- All codes given in `t` are given in `t'`. -/
def Extends (t' t : SymbolTable) : Prop :=
  t'.names.Extends t.names ∧ t'.namespaces.Extends t.namespaces

/-- A table has all its own codes. -/
theorem Extends.refl (t : SymbolTable) : t.Extends t := ⟨fun _ _ h => h, fun _ _ h => h⟩

/-- Codes stay over any number of additions. -/
theorem Extends.trans {t'' : SymbolTable} (h' : t''.Extends t') (h : t'.Extends t) :
    t''.Extends t :=
  ⟨fun s c hc => h'.1 s c (h.1 s c hc), fun s c hc => h'.2 s c (h.2 s c hc)⟩

/-- The code of a namespace that has one; the empty namespace has code 0. -/
def namespaceCode? (t : SymbolTable) (uri : String) : Option UInt16 :=
  if uri = "" then some 0 else t.namespaces.code? uri

/-- A namespace keeps its code. -/
theorem Extends.namespaceCode? (h : t'.Extends t) (hc : t.namespaceCode? s = some c) :
    t'.namespaceCode? s = some c := by
  rw [SymbolTable.namespaceCode?] at hc ⊢
  split
  · next he => rwa [if_pos he] at hc
  · next he =>
    rw [if_neg he] at hc
    exact h.2 s c hc

/-- A name that has a code is answered with it. -/
theorem symbol_of_code? (h : t.names.code? s = some c) : symbol s t = .ok c t := by
  show onNames (Interner.intern s) t = _
  rw [onNames, Interner.intern_of_code? h]

/-- A name that was asked for has its code from then on, and no code changes. -/
theorem symbol_eq_ok (h : symbol s t = .ok c t') :
    t'.names.code? s = some c ∧ t'.Extends t := by
  change onNames (Interner.intern s) t = _ at h
  rw [onNames] at h
  split at h
  · next hi =>
    obtain ⟨rfl, rfl⟩ := EStateM.Result.ok.inj h
    obtain ⟨hc, hext⟩ := Interner.intern_eq_ok hi
    exact ⟨hc, hext, fun _ _ h => h⟩
  · cases h

/-- A name that gets no code changes nothing. -/
theorem symbol_eq_error {e : Error} (h : symbol s t = .error e t') : t' = t := by
  change onNames (Interner.intern s) t = _ at h
  rw [onNames] at h
  split at h
  · cases h
  · next hi =>
    obtain ⟨rfl, rfl⟩ := EStateM.Result.error.inj h
    rw [Interner.intern_eq_error hi]

/-- A namespace that has a code is answered with it. -/
theorem namespaceSymbol_of_code? (h : t.namespaceCode? s = some c) :
    namespaceSymbol s t = .ok c t := by
  rw [namespaceCode?] at h
  rw [namespaceSymbol]
  split
  -- The empty namespace has its code by convention.
  · next he =>
    rw [if_pos he] at h
    obtain rfl := Option.some.inj h
    rfl
  · next he =>
    rw [if_neg he] at h
    rw [onNamespaces, Interner.intern_of_code? h]

/-- A namespace that was asked for has its code from then on, and no code changes. -/
theorem namespaceSymbol_eq_ok (h : namespaceSymbol s t = .ok c t') :
    t'.namespaceCode? s = some c ∧ t'.Extends t := by
  rw [namespaceSymbol] at h
  rw [namespaceCode?]
  split at h
  -- The empty namespace has its code without being in the table.
  · next he =>
    obtain ⟨rfl, rfl⟩ := EStateM.Result.ok.inj h
    exact ⟨by rw [if_pos he], .refl t⟩
  · next he =>
    rw [onNamespaces] at h
    split at h
    · next hi =>
      obtain ⟨rfl, rfl⟩ := EStateM.Result.ok.inj h
      obtain ⟨hc, hext⟩ := Interner.intern_eq_ok hi
      exact ⟨by rw [if_neg he, hc], fun _ _ h => h, hext⟩
    · cases h

/-- A namespace that gets no code changes nothing. -/
theorem namespaceSymbol_eq_error {e : Error} (h : namespaceSymbol s t = .error e t') :
    t' = t := by
  rw [namespaceSymbol] at h
  split at h
  · cases h
  · rw [onNamespaces] at h
    split at h
    · cases h
    · next hi =>
      obtain ⟨rfl, rfl⟩ := EStateM.Result.error.inj h
      rw [Interner.intern_eq_error hi]

end SymbolTable

/-! ## Forming keys -/

namespace Key

variable {t t' : SymbolTable} {kind kind' : NameKind} {collection collection' : CollectionId}
  {name name' : QName} {k k' : Key}

/-- The key of a name in a table that has its codes. -/
def lookup? (t : SymbolTable) (kind : NameKind) (collection : CollectionId) (name : QName) :
    Option Key :=
  match kind with
  | .attrId => some (verbatim collection name.localName)
  | _ => do
    let symbol ← t.names.code? name.localName
    let ns ← t.namespaceCode? name.namespaceUri
    return symbolic kind collection symbol ns

/-- In the families with codes a name has a key if both its parts have codes. -/
theorem lookup?_of_ne_attrId (h : kind ≠ .attrId) :
    lookup? t kind collection name = some k ↔
      ∃ symbol ns, t.names.code? name.localName = some symbol ∧
        t.namespaceCode? name.namespaceUri = some ns ∧ k = symbolic kind collection symbol ns := by
  cases kind with
  | attrId => exact absurd rfl h
  | _ => simp [lookup?, Option.bind_eq_some_iff, eq_comm (a := k)]

/-- In the families with codes forming a key asks for the two codes, the one of the local name
first. -/
theorem ofName_of_ne_attrId (h : kind ≠ .attrId) :
    ofName kind collection name = (do
      let symbol ← SymbolTable.symbol name.localName
      let ns ← SymbolTable.namespaceSymbol name.namespaceUri
      return symbolic kind collection symbol ns) := by
  cases kind with
  | attrId => exact absurd rfl h
  | _ => rfl

/-- A key has the family and the collection that it was formed for. -/
theorem kind_of_lookup? (h : lookup? t kind collection name = some k) :
    k.kind = kind ∧ k.collection = collection := by
  by_cases hk : kind = .attrId
  · subst hk
    obtain rfl := Option.some.inj h
    exact ⟨rfl, rfl⟩
  · obtain ⟨symbol, ns, _, _, rfl⟩ := (lookup?_of_ne_attrId hk).mp h
    exact ⟨rfl, rfl⟩

/-- A name that has its codes keeps its key. -/
theorem lookup?_of_extends (hext : t'.Extends t) (h : lookup? t kind collection name = some k) :
    lookup? t' kind collection name = some k := by
  by_cases hk : kind = .attrId
  · subst hk
    exact h
  · obtain ⟨symbol, ns, hs, hns, rfl⟩ := (lookup?_of_ne_attrId hk).mp h
    exact (lookup?_of_ne_attrId hk).mpr ⟨symbol, ns, hext.1 _ _ hs, hext.namespaceCode? hns, rfl⟩

/-- A name that has a key in one collection has one in every collection. -/
theorem lookup?_of_collection (h : lookup? t kind collection name = some k)
    (collection' : CollectionId) :
    lookup? t kind collection' name = some { k with collection := collection' } := by
  by_cases hk : kind = .attrId
  · subst hk
    obtain rfl := Option.some.inj h
    rfl
  · obtain ⟨symbol, ns, hs, hns, rfl⟩ := (lookup?_of_ne_attrId hk).mp h
    exact (lookup?_of_ne_attrId hk).mpr ⟨symbol, ns, hs, hns, rfl⟩

/-- A name that has its codes gets its key without a change. -/
theorem ofName_of_lookup? (h : lookup? t kind collection name = some k) :
    ofName kind collection name t = .ok k t := by
  -- The third family needs no codes; the others have theirs already.
  by_cases hk : kind = .attrId
  · subst hk
    obtain rfl := Option.some.inj h
    rfl
  · obtain ⟨symbol, ns, hs, hns, rfl⟩ := (lookup?_of_ne_attrId hk).mp h
    rw [ofName_of_ne_attrId hk]
    refine Action.bind_eq_ok_iff.mpr ⟨symbol, t, SymbolTable.symbol_of_code? hs, ?_⟩
    exact Action.bind_eq_ok_iff.mpr ⟨ns, t, SymbolTable.namespaceSymbol_of_code? hns, rfl⟩

/-- A name gets the codes it does not have, and no other code changes. -/
theorem ofName_eq_ok (h : ofName kind collection name t = .ok k t') :
    lookup? t' kind collection name = some k ∧ t'.Extends t := by
  by_cases hk : kind = .attrId
  · subst hk
    obtain ⟨rfl, rfl⟩ := EStateM.Result.ok.inj h
    exact ⟨rfl, .refl t⟩
  -- The code of the local name is still there after that of the namespace is given.
  · rw [ofName_of_ne_attrId hk] at h
    obtain ⟨symbol, t₁, hs, h⟩ := Action.bind_eq_ok_iff.mp h
    obtain ⟨ns, t₂, hns, h⟩ := Action.bind_eq_ok_iff.mp h
    obtain ⟨rfl, rfl⟩ := EStateM.Result.ok.inj h
    obtain ⟨hs, hext⟩ := SymbolTable.symbol_eq_ok hs
    obtain ⟨hns, hext'⟩ := SymbolTable.namespaceSymbol_eq_ok hns
    exact ⟨(lookup?_of_ne_attrId hk).mpr ⟨symbol, ns, hext'.1 _ _ hs, hns, rfl⟩,
      hext'.trans hext⟩

/-- A name whose key cannot be formed may have got one of its codes. -/
theorem ofName_eq_error {e : Error} (h : ofName kind collection name t = .error e t') :
    t'.Extends t := by
  by_cases hk : kind = .attrId
  · subst hk
    cases h
  -- Only the local name can have got a code, for it is asked for first.
  · rw [ofName_of_ne_attrId hk] at h
    rcases Action.bind_eq_error_iff.mp h with h | ⟨symbol, t₁, hs, h⟩
    · rw [SymbolTable.symbol_eq_error h]
      exact .refl t
    · obtain ⟨_, hext⟩ := SymbolTable.symbol_eq_ok hs
      rcases Action.bind_eq_error_iff.mp h with h | ⟨ns, t₂, _, h⟩
      · rw [SymbolTable.namespaceSymbol_eq_error h]
        exact hext
      · cases h

/-- A key that cannot be formed cannot be formed the next time either. -/
theorem ofName_of_error {e : Error} (h : ofName kind collection name t = .error e t') :
    ofName kind collection name t' = .error e t' := by
  by_cases hk : kind = .attrId
  · subst hk
    cases h
  · rw [ofName_of_ne_attrId hk] at h ⊢
    rcases Action.bind_eq_error_iff.mp h with hs | ⟨symbol, t₁, hs, hrest⟩
    · obtain rfl := SymbolTable.symbol_eq_error hs
      exact Action.bind_eq_error_iff.mpr (.inl hs)
    · rcases Action.bind_eq_error_iff.mp hrest with hns | ⟨ns, t₂, _, hlast⟩
      · obtain rfl := SymbolTable.namespaceSymbol_eq_error hns
        -- The local name has its code by now.
        have hagain := SymbolTable.symbol_of_code? (SymbolTable.symbol_eq_ok hs).1
        exact Action.bind_eq_error_iff.mpr (.inr ⟨symbol, _, hagain, hrest⟩)
      · cases hlast

/-- Forming the key of a name a second time gives what the first time gave. -/
theorem ofName_stateOf (kind : NameKind) (collection : CollectionId) (name : QName)
    (t : SymbolTable) :
    ofName kind collection name (Action.stateOf (ofName kind collection name t)) =
      ofName kind collection name t := by
  cases h : ofName kind collection name t with
  | ok k t' => exact ofName_of_lookup? (ofName_eq_ok h).1
  | error e t' => exact ofName_of_error h

/-! ## Reading keys -/

/-- A key is a byte for the family, two for the collection, and a tail. -/
theorem toBytes_eq (k : Key) :
    k.toBytes = k.kind.toByte :: UInt8.ofNat (k.collection.toNat / 256) ::
      UInt8.ofNat k.collection.toNat :: k.tail := rfl

/-- Keys are read back from their bytes. -/
theorem ofBytes_toBytes (k : Key) : ofBytes k.toBytes = .ok k := by
  have hlen : k.kind = .attrId ∨ k.tail.length = 4 := by
    by_cases hk : k.kind = .attrId
    · exact .inl hk
    · exact .inr (k.tail_length hk)
  rw [toBytes_eq, ofBytes, NameKind.ofByte?_toByte]
  simp only [hlen, dite_true, Bytes.ofBigEndian_bigEndian]

/-- Different keys have different bytes. -/
theorem toBytes_inj (h : k.toBytes = k'.toBytes) : k = k' := by
  have hread := ofBytes_toBytes k
  rw [h, ofBytes_toBytes k'] at hread
  exact (Except.ok.inj hread).symm

/-- A key starts with its family and its collection. -/
theorem head_isPrefixOf_toBytes :
    (head kind collection).isPrefixOf k.toBytes ↔ k.kind = kind ∧ k.collection = collection := by
  rw [List.isPrefixOf_iff_prefix]
  constructor
  -- The first byte tells the family, and the next two the collection.
  · rintro ⟨rest, hrest⟩
    rw [toBytes_eq] at hrest
    obtain ⟨hkind, hbytes⟩ := List.cons.inj hrest
    obtain ⟨hhigh, hbytes⟩ := List.cons.inj hbytes
    obtain ⟨hlow, _⟩ := List.cons.inj hbytes
    refine ⟨(NameKind.toByte_inj hkind).symm, ?_⟩
    rw [← Bytes.ofBigEndian_bigEndian k.collection, ← hhigh, ← hlow, Bytes.ofBigEndian_bigEndian]
  · rintro ⟨rfl, rfl⟩
    exact List.prefix_append _ _

/-- The codes that a key was formed from are read off its tail. -/
theorem symbols?_symbolic (hk : kind ≠ .attrId) (symbol ns : UInt16) :
    (symbolic kind collection symbol ns).symbols? = some (symbol, ns) := by
  cases kind with
  | attrId => exact absurd rfl hk
  | _ =>
    show some (Bytes.ofBigEndian _ _, Bytes.ofBigEndian _ _) = _
    rw [Bytes.ofBigEndian_bigEndian, Bytes.ofBigEndian_bigEndian]

/-- A code stands for one namespace. -/
theorem namespace?_of_namespaceCode? {s : String} {c : UInt16} (h : t.namespaceCode? s = some c) :
    t.namespace? c = some s := by
  rw [SymbolTable.namespaceCode?] at h
  rw [SymbolTable.namespace?]
  split at h
  · next hempty =>
    obtain rfl := Option.some.inj h
    rw [if_pos rfl, hempty]
  · rw [if_neg (Interner.ne_zero_of_code? h)]
    exact Interner.text?_of_code? h

/-- The table has the local name and the namespace for the codes in a key. -/
theorem codes_of_lookup? (hk : kind ≠ .attrId) (h : lookup? t kind collection name = some k) :
    ∃ symbol ns, k.symbols? = some (symbol, ns) ∧ t.name? symbol = some name.localName ∧
      t.namespace? ns = some name.namespaceUri := by
  obtain ⟨symbol, ns, hs, hns, rfl⟩ := (lookup?_of_ne_attrId hk).mp h
  have hname : t.name? symbol = some name.localName := Interner.text?_of_code? hs
  exact ⟨symbol, ns, symbols?_symbolic hk symbol ns, hname, namespace?_of_namespaceCode? hns⟩

/-- Names that a family tells apart: by local name, and by namespace where it looks at it. -/
def SameHeading (kind : NameKind) (name name' : QName) : Prop :=
  name.localName = name'.localName ∧
    (kind ≠ .attrId → name.namespaceUri = name'.namespaceUri)

/-- Two namespaces do not have one code. -/
theorem namespaceCode?_inj {s s' : String} {c : UInt16} (h : t.namespaceCode? s = some c)
    (h' : t.namespaceCode? s' = some c) : s = s' := by
  have htext := namespace?_of_namespaceCode? h
  rw [namespace?_of_namespaceCode? h'] at htext
  exact (Option.some.inj htext).symm

/-- A key is the key of one name in one collection. -/
theorem lookup?_inj (h : lookup? t kind collection name = some k)
    (h' : lookup? t kind' collection' name' = some k) :
    kind = kind' ∧ collection = collection' ∧ SameHeading kind name name' := by
  obtain ⟨hk, hc⟩ := kind_of_lookup? h
  obtain ⟨hk', hc'⟩ := kind_of_lookup? h'
  obtain rfl : kind = kind' := hk.symm.trans hk'
  refine ⟨rfl, hc.symm.trans hc', ?_⟩
  by_cases ha : kind = .attrId
  -- The key has the local name itself.
  · subst ha
    obtain rfl := Option.some.inj h
    have htail := congrArg Key.tail (Option.some.inj h')
    refine ⟨?_, fun hne => absurd rfl hne⟩
    simp only [verbatim, Bytes.ofText, Array.toList_inj] at htail
    exact (String.toByteArray_inj.mp (ByteArray.ext htail)).symm
  · obtain ⟨symbol, ns, hs, hns, rfl⟩ := (lookup?_of_ne_attrId ha).mp h
    obtain ⟨symbol', ns', hs', hns', heq⟩ := (lookup?_of_ne_attrId ha).mp h'
    -- The key has the two codes, and a code is given to one string only.
    have hsymbols := congrArg symbols? heq
    rw [symbols?_symbolic ha, symbols?_symbolic ha] at hsymbols
    obtain ⟨rfl, rfl⟩ := Prod.mk.inj (Option.some.inj hsymbols)
    exact ⟨Interner.code?_inj hs hs', fun _ => namespaceCode?_inj hns hns'⟩

/-- Names that a family does not tell apart have one key. -/
theorem lookup?_of_sameHeading (h : SameHeading kind name name') :
    lookup? t kind collection name = lookup? t kind collection name' := by
  obtain ⟨hl, hns⟩ := h
  cases kind with
  | attrId => simp [lookup?, verbatim, hl]
  | element => simp [lookup?, hl, hns (by decide)]
  | attr => simp [lookup?, hl, hns (by decide)]

end Key

end XmlIndex
