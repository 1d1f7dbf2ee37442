import Mathlib.Data.List.Nodup
import XmlIndex.Index.Entries
import XmlIndex.Proofs.IndexContents
import XmlIndex.Proofs.WireReading

/-! # The index by names

The codes in the keys depend on the order in which names came to the index.  What an index holds
is therefore best told by names: `Store.valueUnder` is the value under the key of a name, as far
as the name has its codes.  Codes given to other names change nothing of it
(`Store.valueUnder_of_extends`), and a change of the value under one key is a change under the
names with that key (`Store.valueUnder_change`).

A key goes back to the name it was made of, without qualifier, and in the third family without
namespace (`QName.plain`, `Key.name_of_lookup?`).  So the keys listed for a collection are as
many as the plain names with a value there, and under each of these there is one key
(`Store.Lists`).  What is taken together over all keys of a collection therefore does not depend
on the codes (`Store.Lists.perm_measures`). -/

namespace XmlIndex

/-! ## Names and keys -/

namespace QName

/-- The part of a name that its key in a family is made of. -/
def plain (kind : NameKind) (q : QName) : QName where
  localName := q.localName
  namespaceUri := if kind = .attrId then "" else q.namespaceUri
  kind := kind

/-- A plain name has the heading of the name. -/
theorem sameHeading_plain (kind : NameKind) (q : QName) :
    Key.SameHeading kind (q.plain kind) q :=
  ⟨rfl, fun hkind => if_neg hkind⟩

/-- A plain name is its own plain part. -/
theorem plain_plain (kind : NameKind) (q : QName) : (q.plain kind).plain kind = q.plain kind := by
  cases kind <;> rfl

end QName

namespace Key

variable {t : SymbolTable} {kind : NameKind} {collection : CollectionId} {q : QName} {k : Key}

/-- A key goes back to the name it was made of. -/
theorem name_of_lookup? (h : lookup? t kind collection q = some k) :
    k.name t = .ok (q.plain kind) := by
  -- A key of the third family holds the name itself, the others hold codes for it.
  by_cases hk : kind = .attrId
  · subst hk
    obtain rfl := Option.some.inj h
    have htext : Bytes.lossyText (Bytes.ofText q.localName) = q.localName :=
      Bytes.lossyText_of_decodeText? (Bytes.decodeText?_ofText q.localName)
    show (.ok { localName := Bytes.lossyText (Bytes.ofText q.localName), kind := .attrId } :
      Except Error QName) = _
    rw [htext]
    rfl
  · obtain ⟨symbol, ns, hsymbols, hname, hnamespace⟩ := codes_of_lookup? hk h
    obtain ⟨rfl, -⟩ := kind_of_lookup? h
    rw [Key.name, hsymbols]
    simp only [hname, hnamespace, QName.plain, if_neg hk]

/-- The key is made of the plain part. -/
theorem lookup?_plain (t : SymbolTable) (kind : NameKind) (collection : CollectionId)
    (q : QName) : lookup? t kind collection (q.plain kind) = lookup? t kind collection q :=
  lookup?_of_sameHeading (QName.sameHeading_plain kind q)

/-- The key of a name goes back to the name and to no other. -/
theorem Named.name_eq_ok_iff (h : Named t k.toBytes) :
    k.name t = .ok q ↔ q.plain q.kind = q ∧ lookup? t q.kind k.collection q = some k := by
  -- Some name has the key, and codes tell it.
  obtain ⟨kind, collection, q', k', hlookup, hbytes⟩ := h
  obtain rfl := toBytes_inj hbytes
  obtain ⟨_, rfl⟩ := kind_of_lookup? hlookup
  constructor
  · intro hname
    rw [name_of_lookup? hlookup] at hname
    obtain rfl := Except.ok.inj hname
    exact ⟨QName.plain_plain kind q', (lookup?_plain t kind _ q').trans hlookup⟩
  · rintro ⟨hplain, hq⟩
    rw [name_of_lookup? hq, hplain]

end Key

/-! ## Values under names -/

namespace Store

open Index (blocksOf)

variable {s s' : Store} {t t' : SymbolTable} {kind : NameKind} {collection : CollectionId}
  {q : QName} {k : Key}

/-- The value under the key of a name; none if the name has no codes. -/
def valueUnder (s : Store) (t : SymbolTable) (kind : NameKind) (collection : CollectionId)
    (q : QName) : Option Bytes :=
  (Key.lookup? t kind collection q).bind fun k => s.value? k.toBytes

/-- The blocks under the key of a name. -/
def blocksUnder (s : Store) (t : SymbolTable) (kind : NameKind) (collection : CollectionId)
    (q : QName) : List Block :=
  blocksOf (s.valueUnder t kind collection q)

/-- The value under a name is that of its key. -/
theorem valueUnder_of_lookup? (h : Key.lookup? t kind collection q = some k) :
    s.valueUnder t kind collection q = s.value? k.toBytes := by
  rw [valueUnder, h, Option.bind_some]

/-- Without codes there is no value. -/
theorem valueUnder_of_lookup?_eq_none (h : Key.lookup? t kind collection q = none) :
    s.valueUnder t kind collection q = none := by
  rw [valueUnder, h, Option.bind_none]

/-- The value is under the plain part. -/
theorem valueUnder_plain (s : Store) (t : SymbolTable) (kind : NameKind)
    (collection : CollectionId) (q : QName) :
    s.valueUnder t kind collection (q.plain kind) = s.valueUnder t kind collection q := by
  rw [valueUnder, Key.lookup?_plain, valueUnder]

/-- Stores with the same values have them under the same names. -/
theorem valueUnder_congr (h : ∀ key, s'.value? key = s.value? key) :
    s'.valueUnder t = s.valueUnder t := by
  funext kind collection q
  simp only [valueUnder, h]

/-- Codes given to new names change no value. -/
theorem valueUnder_of_extends (hs : s.KeysNamed t) (hext : t'.Extends t) :
    s.valueUnder t' = s.valueUnder t := by
  funext kind collection q
  cases hk : Key.lookup? t kind collection q with
  | some k =>
    rw [valueUnder_of_lookup? hk, valueUnder_of_lookup? (Key.lookup?_of_extends hext hk)]
  | none =>
    rw [valueUnder_of_lookup?_eq_none hk]
    -- A name that has codes only now has a key under which there is nothing.
    cases hk' : Key.lookup? t' kind collection q with
    | none => rw [valueUnder_of_lookup?_eq_none hk']
    | some k => rw [valueUnder_of_lookup? hk', value?_of_new_name hs hext hk hk']

/-- The blocks under a name are intact. -/
theorem IntactFor.intact_blocksUnder (hs : s.IntactFor t) (kind : NameKind)
    (collection : CollectionId) (q : QName) : Block.Intact (s.blocksUnder t kind collection q) := by
  cases hk : Key.lookup? t kind collection q with
  | none =>
    rw [blocksUnder, valueUnder_of_lookup?_eq_none hk]
    exact Block.intact_nil
  | some k =>
    obtain ⟨bs, hbs, hvalue⟩ := hs.exists_blocks k.toBytes
    rw [blocksUnder, valueUnder_of_lookup? hk, Index.blocksOf_of_getD hbs hvalue]
    exact hbs

/-- A new value under the key of a name is one under the names with its heading. -/
theorem valueUnder_change {value? : Option Bytes}
    (hk : Key.lookup? t kind collection q = some k)
    (hstore : ∀ key, s'.value? key = if key = k.toBytes then value? else s.value? key)
    (kind' : NameKind) (collection' : CollectionId) (q' : QName) :
    s'.valueUnder t kind' collection' q' =
      if kind' = kind ∧ collection' = collection ∧ Key.SameHeading kind q q' then value?
      else s.valueUnder t kind' collection' q' := by
  split
  · next hplace =>
    obtain ⟨rfl, rfl, hheading⟩ := hplace
    rw [valueUnder_of_lookup? ((Key.lookup?_of_sameHeading hheading).symm.trans hk), hstore,
      if_pos rfl]
  · next hplace =>
    cases hk' : Key.lookup? t kind' collection' q' with
    | none => rw [valueUnder_of_lookup?_eq_none hk', valueUnder_of_lookup?_eq_none hk']
    | some k' =>
      rw [valueUnder_of_lookup? hk', valueUnder_of_lookup? hk', hstore, if_neg]
      -- One key would mean one heading.
      intro hbytes
      obtain rfl := Key.toBytes_inj hbytes
      obtain ⟨rfl, rfl, hheading⟩ := Key.lookup?_inj hk hk'
      exact hplace ⟨rfl, rfl, hheading⟩

/-- A change of all values of some families of a collection is one under the names in them. -/
theorem valueUnder_changedAt {f : Option Bytes → Option Bytes} {kinds : List NameKind}
    (hf : f none = none) (h : ChangedAt f (Index.KeysOf kinds collection) s s') (kind : NameKind)
    (collection' : CollectionId) (q : QName) : s'.valueUnder t kind collection' q =
      if collection' = collection ∧ kind ∈ kinds then f (s.valueUnder t kind collection' q)
      else s.valueUnder t kind collection' q := by
  -- A name without a key has no value, and nothing is made out of that.
  cases hk : Key.lookup? t kind collection' q with
  | none =>
    rw [valueUnder_of_lookup?_eq_none hk, valueUnder_of_lookup?_eq_none hk, hf]
    exact (ite_self _).symm
  | some k =>
    rw [valueUnder_of_lookup? hk, valueUnder_of_lookup? hk]
    obtain ⟨rfl, rfl⟩ := Key.kind_of_lookup? hk
    split
    · next hkey => exact (h k.toBytes).1 (Index.keysOf_toBytes.mpr hkey.symm)
    · next hkey => exact (h k.toBytes).2 fun hdone => hkey (Index.keysOf_toBytes.mp hdone).symm

/-! ## Listed entries -/

/-- The entries are those of a collection: each key with its value, once. -/
structure Lists (s : Store) (collection : CollectionId) (es : List (Key × Bytes)) : Prop where
  nodup : es.Nodup
  mem_iff : ∀ k value, (k, value) ∈ es ↔ k.collection = collection ∧ s.value? k.toBytes = some value

/-- The entries whose keys go back to a name. -/
def ofName (t : SymbolTable) (q : QName) (es : List (Key × Bytes)) : List (Key × Bytes) :=
  es.filter fun e => decide ((e.1.name t).toOption = some q)

/-- The entries of a name are those whose keys go back to it. -/
theorem mem_ofName {es : List (Key × Bytes)} {e : Key × Bytes} :
    e ∈ ofName t q es ↔ e ∈ es ∧ e.1.name t = .ok q := by
  rw [ofName, List.mem_filter, decide_eq_true_iff]
  cases e.1.name t <;> simp [Except.toOption]

namespace Lists

variable {es : List (Key × Bytes)}

/-- A listed value is the one in the store. -/
theorem value?_of_mem {e : Key × Bytes} (h : s.Lists collection es) (he : e ∈ es) :
    s.value? e.1.toBytes = some e.2 :=
  ((h.mem_iff e.1 e.2).mp he).2

/-- Listed blocks are those in the store. -/
theorem blocksOf_eq {e : Key × Bytes} (h : s.Lists collection es) (he : e ∈ es) :
    (Block.scan e.2).blocks = blocksOf (s.value? e.1.toBytes) := by
  rw [h.value?_of_mem he]
  rfl

/-- Of a plain name there is one entry if there is a value under it. -/
theorem ofName_eq (h : s.Lists collection es) (hs : s.KeysNamed t) (hq : q.plain q.kind = q) :
    (∃ k, Key.lookup? t q.kind collection q = some k ∧ ∃ value, s.value? k.toBytes = some value ∧
      ofName t q es = [(k, value)]) ∨
    s.valueUnder t q.kind collection q = none ∧ ofName t q es = [] := by
  -- An entry of the name has the key of the name.
  have hmem : ∀ k value, (k, value) ∈ ofName t q es ↔
      Key.lookup? t q.kind collection q = some k ∧ s.value? k.toBytes = some value := by
    intro k value
    rw [mem_ofName, h.mem_iff]
    constructor
    · rintro ⟨⟨rfl, hvalue⟩, hname⟩
      have hnamed := hs k.toBytes (by rw [hvalue]; rfl)
      exact ⟨(hnamed.name_eq_ok_iff.mp hname).2, hvalue⟩
    · rintro ⟨hlookup, hvalue⟩
      have hname := Key.name_of_lookup? hlookup
      rw [hq] at hname
      exact ⟨⟨(Key.kind_of_lookup? hlookup).2, hvalue⟩, hname⟩
  -- Without a value under the key, the list is empty.
  have hnone : (∀ k value, Key.lookup? t q.kind collection q = some k →
      s.value? k.toBytes ≠ some value) → ofName t q es = [] := by
    intro hno
    refine List.eq_nil_iff_forall_not_mem.mpr fun e he => ?_
    obtain ⟨hlookup, hvalue⟩ := (hmem e.1 e.2).mp he
    exact hno _ _ hlookup hvalue
  cases hk : Key.lookup? t q.kind collection q with
  | none =>
    refine .inr ⟨valueUnder_of_lookup?_eq_none hk, hnone fun k value hlookup => ?_⟩
    rw [hk] at hlookup
    cases hlookup
  | some k =>
    cases hv : s.value? k.toBytes with
    | none =>
      refine .inr ⟨(valueUnder_of_lookup? hk).trans hv, hnone fun k' value hlookup hvalue => ?_⟩
      obtain rfl := Option.some.inj (hk.symm.trans hlookup)
      rw [hv] at hvalue
      cases hvalue
    | some value =>
      refine .inl ⟨k, rfl, value, hv, ?_⟩
      -- The list has no other element than this one, and it has it once.
      have hnodup : (ofName t q es).Nodup := h.nodup.filter _
      refine List.perm_singleton.mp ((List.perm_ext_iff_of_nodup hnodup (by simp)).mpr ?_)
      rintro ⟨k', value'⟩
      rw [hmem, List.mem_singleton, hk]
      constructor
      · rintro ⟨hlookup, hvalue⟩
        obtain rfl := Option.some.inj hlookup
        rw [hv] at hvalue
        rw [Option.some.inj hvalue]
      · rintro heq
        obtain ⟨rfl, rfl⟩ := Prod.mk.inj heq
        exact ⟨rfl, hv⟩

/-- The blocks listed for a plain name are those under it. -/
theorem blocks_ofName (h : s.Lists collection es) (hs : s.KeysNamed t)
    (hq : q.plain q.kind = q) :
    (ofName t q es).flatMap (fun e => (Block.scan e.2).blocks) =
      s.blocksUnder t q.kind collection q := by
  rcases h.ofName_eq hs hq with ⟨k, hk, value, hv, hof⟩ | ⟨hnone, hof⟩
  · rw [hof, blocksUnder, valueUnder_of_lookup? hk, hv]
    simp [blocksOf]
  · rw [hof, blocksUnder, hnone]
    rfl

/-- A plain name is listed if there is a value under it. -/
theorem ofName_ne_nil_iff (h : s.Lists collection es) (hs : s.KeysNamed t)
    (hq : q.plain q.kind = q) :
    ofName t q es ≠ [] ↔ (s.valueUnder t q.kind collection q).isSome := by
  rcases h.ofName_eq hs hq with ⟨k, hk, value, hv, hof⟩ | ⟨hnone, hof⟩
  · rw [hof, valueUnder_of_lookup? hk, hv]
    simp
  · rw [hof, hnone]
    simp

/-- The keys listed go back to plain names. -/
theorem name_of_mem (h : s.Lists collection es) (hs : s.KeysNamed t) {e : Key × Bytes}
    (he : e ∈ es) : ∃ q, e.1.name t = .ok q ∧ q.plain q.kind = q := by
  have hnamed := hs e.1.toBytes (by rw [h.value?_of_mem he]; rfl)
  obtain ⟨kind, c, q, k, hlookup, hbytes⟩ := hnamed
  obtain rfl := Key.toBytes_inj hbytes
  exact ⟨_, Key.name_of_lookup? hlookup, QName.plain_plain kind q⟩

/-! ### Two listings of a collection -/

section Measures

variable {es' : List (Key × Bytes)} {e e' : Key × Bytes} {β : Type}

/-- An entry goes back to a name just if its key is that of the name. -/
theorem name_eq_ok_iff (h : s.Lists collection es) (hs : s.KeysNamed t) (he : e ∈ es) :
    e.1.name t = .ok q ↔
      q.plain q.kind = q ∧ Key.lookup? t q.kind collection q = some e.1 := by
  have hnamed := hs e.1.toBytes (by rw [h.value?_of_mem he]; rfl)
  rw [hnamed.name_eq_ok_iff, ((h.mem_iff e.1 e.2).mp he).1]

/-- The blocks of an entry are those under the name it goes back to. -/
theorem exists_blocksUnder (h : s.Lists collection es) (hs : s.KeysNamed t) (he : e ∈ es) :
    ∃ q, e.1.name t = .ok q ∧ Key.lookup? t q.kind collection q = some e.1 ∧
      (Block.scan e.2).blocks = s.blocksUnder t q.kind collection q := by
  obtain ⟨q, hname, _⟩ := h.name_of_mem hs he
  have hlookup := ((h.name_eq_ok_iff hs he).mp hname).2
  refine ⟨q, hname, hlookup, ?_⟩
  rw [blocksUnder, valueUnder_of_lookup? hlookup, h.blocksOf_eq he]

/-- No two entries go back to one name. -/
theorem eq_of_name_eq (h : s.Lists collection es) (hs : s.KeysNamed t) (he : e ∈ es)
    (he' : e' ∈ es) (hname : e.1.name t = e'.1.name t) : e = e' := by
  obtain ⟨q, hq, _⟩ := h.name_of_mem hs he
  have hk := ((h.name_eq_ok_iff hs he).mp hq).2
  have hk' := ((h.name_eq_ok_iff hs he').mp (hname.symm.trans hq)).2
  -- A name has one key in the collection.
  have hkey : e.1 = e'.1 := Option.some.inj (hk.symm.trans hk')
  have hvalue := h.value?_of_mem he
  rw [hkey, h.value?_of_mem he'] at hvalue
  exact Prod.ext hkey (Option.some.inj hvalue).symm

/-- The names that entries go back to, each with a measure of its value. -/
theorem mem_measures (h : s.Lists collection es) (hs : s.KeysNamed t) (g : Bytes → β) {n : β} :
    (some q, n) ∈ es.map (fun e => ((e.1.name t).toOption, g e.2)) ↔
      q.plain q.kind = q ∧ (s.valueUnder t q.kind collection q).map g = some n := by
  rw [List.mem_map]
  constructor
  -- An entry has the key of the name it goes back to, and so its value.
  · rintro ⟨e, he, heq⟩
    obtain ⟨hname, rfl⟩ := Prod.mk.inj heq
    have hok : e.1.name t = .ok q := by
      cases hn : e.1.name t with
      | ok q' => rw [hn] at hname; exact congrArg _ (Option.some.inj hname)
      | error err => rw [hn] at hname; cases hname
    obtain ⟨hplain, hk⟩ := (h.name_eq_ok_iff hs he).mp hok
    rw [valueUnder_of_lookup? hk, h.value?_of_mem he]
    exact ⟨hplain, rfl⟩
  · rintro ⟨hplain, hmeasure⟩
    obtain ⟨value, hunder, rfl⟩ := Option.map_eq_some_iff.mp hmeasure
    obtain ⟨k, hk, hvalue⟩ := Option.bind_eq_some_iff.mp hunder
    have he : (k, value) ∈ es := (h.mem_iff k value).mpr ⟨(Key.kind_of_lookup? hk).2, hvalue⟩
    refine ⟨(k, value), he, ?_⟩
    rw [(h.name_eq_ok_iff hs he).mpr ⟨hplain, hk⟩]
    rfl

/-- Every entry goes back to a name. -/
theorem none_notMem_measures (h : s.Lists collection es) (hs : s.KeysNamed t) (g : Bytes → β)
    (n : β) : (none, n) ∉ es.map fun e => ((e.1.name t).toOption, g e.2) := by
  intro hmem
  obtain ⟨e, he, heq⟩ := List.mem_map.mp hmem
  obtain ⟨q, hq, _⟩ := h.name_of_mem hs he
  rw [hq] at heq
  cases (Prod.mk.inj heq).1

/-- No two of them are the same. -/
theorem nodup_measures (h : s.Lists collection es) (hs : s.KeysNamed t) (g : Bytes → β) :
    (es.map fun e => ((e.1.name t).toOption, g e.2)).Nodup := by
  refine h.nodup.map_on fun e he e' he' heq => h.eq_of_name_eq hs he he' ?_
  obtain ⟨q, hq, _⟩ := h.name_of_mem hs he
  obtain ⟨q', hq', _⟩ := h.name_of_mem hs he'
  have hname := (Prod.mk.inj heq).1
  rw [hq, hq'] at hname ⊢
  exact congrArg _ (Option.some.inj hname)

/-- If under every name there are values of one measure, the measures are the same over all keys,
though in another order. -/
theorem perm_measures (h : s.Lists collection es) (h' : s'.Lists collection es')
    (hs : s.KeysNamed t) (hs' : s'.KeysNamed t') (g : Bytes → β)
    (hvalues : ∀ kind q, (s.valueUnder t kind collection q).map g =
      (s'.valueUnder t' kind collection q).map g) :
    (es.map fun e => g e.2).Perm (es'.map fun e => g e.2) := by
  -- The keys differ, but the names with the measures of their values are the same.
  have hperm : (es.map fun e => ((e.1.name t).toOption, g e.2)).Perm
      (es'.map fun e => ((e.1.name t').toOption, g e.2)) := by
    refine (List.perm_ext_iff_of_nodup (h.nodup_measures hs g) (h'.nodup_measures hs' g)).mpr ?_
    rintro ⟨q?, n⟩
    cases q? with
    | some q => rw [h.mem_measures hs, h'.mem_measures hs', hvalues]
    | none => exact iff_of_false (h.none_notMem_measures hs g n) (h'.none_notMem_measures hs' g n)
  have hmeasures := hperm.map Prod.snd
  rwa [List.map_map, List.map_map] at hmeasures

end Measures

end Lists

end Store

end XmlIndex
