import Mathlib.Algebra.GroupWithZero.Nat
import Mathlib.Data.List.Dedup
import XmlIndex.Proofs.StoredValues
import XmlIndex.Proofs.ValuesByName

/-! # What a census counts

A census goes through the keys of some collections and adds up what the headers of the blocks
say.  In an intact store the keys listed for a collection are those of plain names, one key for
each (`Index.entriesOf_lists`), so for every name the census adds up the blocks under it
(`Index.census_spec`).

The headers declare as many nodes as there are entries.  Blocks, however, are not documents: a
document that was loaded in two parts has two blocks under a name, and is counted twice
(`Index.Run.census_counts`). -/

namespace XmlIndex

open Index (blocksOf)

/-! ## Adding up blocks -/

namespace NameCount

/-- The count with some more blocks. -/
def addBlocks (c : NameCount) (bs : List Block) : NameCount :=
  bs.foldl (fun c b => c.add b.count) c

/-- The blocks of two lists are counted one after the other. -/
theorem addBlocks_append (c : NameCount) (bs cs : List Block) :
    c.addBlocks (bs ++ cs) = (c.addBlocks bs).addBlocks cs := List.foldl_append

/-- The nodes are added up by the headers, the documents by the blocks. -/
theorem addBlocks_eq (c : NameCount) (bs : List Block) :
    c.addBlocks bs = { c with nodes := c.nodes + (bs.map (·.count.toNat)).sum,
                              documents := c.documents + bs.length } := by
  induction bs generalizing c with
  | nil => rfl
  | cons b bs ih =>
    show (c.add b.count).addBlocks bs = _
    rw [ih]
    simp only [add, List.map_cons, List.sum_cons, List.length_cons, mk.injEq, true_and]
    omega

/-- A value without a fault is counted by its blocks. -/
theorem addValue_eq {value : Bytes} (h : (Block.scan value).fault? = none) (c : NameCount) :
    c.addValue value = .ok (c.addBlocks (Block.scan value).blocks) := by
  rw [addValue, Framing.fold_of_no_fault h]
  exact Framing.foldlM_eq_ok (fun b _ c => rfl) c

end NameCount

/-! ## The entries of a collection -/

namespace Key

/-- The keys of one family come before those of a later one. -/
theorem compare_of_kind_lt {k k' : Key} (h : compare k.kind k'.kind = .lt) :
    compare k k' = .lt := by
  show compare (k.kind.toByte :: _) (k'.kind.toByte :: _) = .lt
  rw [List.compare_cons_cons, show compare k.kind.toByte k'.kind.toByte = .lt from h]
  rfl

/-- A key before another is another. -/
theorem ne_of_compare_eq_lt {k k' : Key} (h : compare k k' = .lt) : k ≠ k' := fun heq =>
  SortedMap.ne_of_compare_eq_lt (show compare k.toBytes k'.toBytes = .lt from h)
    (congrArg toBytes heq)

end Key

namespace Index

section Entries

variable {s : Store} {t : SymbolTable}

/-- Keys are read back from their bytes. -/
theorem parseKeys_toBytes (es : List (Key × Bytes)) :
    parseKeys (es.map fun e => (e.1.toBytes, e.2)) = .ok es := by
  induction es with
  | nil => rfl
  | cons e es ih =>
    unfold parseKeys at ih ⊢
    simp only [List.map_cons, List.mapM_cons, Key.ofBytes_toBytes, ih]
    rfl

/-- An entry is found by the bytes of its key. -/
theorem mem_map_toBytes {es : List (Key × Bytes)} {k : Key} {value : Bytes} :
    (k.toBytes, value) ∈ es.map (fun e => (e.1.toBytes, e.2)) ↔ (k, value) ∈ es := by
  constructor
  · intro h
    obtain ⟨e, he, heq⟩ := List.mem_map.mp h
    obtain ⟨hkey, hvalue⟩ := Prod.mk.inj heq
    rwa [← Key.toBytes_inj hkey, ← hvalue]
  · exact fun h => List.mem_map.mpr ⟨(k, value), h, rfl⟩

/-- Stored entries have the keys of names. -/
theorem exists_parsed (hs : s.KeysNamed t) {entries : List (Bytes × Bytes)}
    (h : ∀ e ∈ entries, s.value? e.1 = some e.2) :
    ∃ es : List (Key × Bytes), entries = es.map fun e => (e.1.toBytes, e.2) := by
  induction entries with
  | nil => exact ⟨[], rfl⟩
  | cons e entries ih =>
    obtain ⟨he, hentries⟩ := List.forall_mem_cons.mp h
    obtain ⟨es, rfl⟩ := ih hentries
    -- There is a value under the key, so it was formed of a name.
    obtain ⟨_, _, _, k, _, hkey⟩ := hs e.1 (by rw [he]; rfl)
    refine ⟨(k, e.2) :: es, ?_⟩
    rw [List.map_cons, ← hkey]

/-- The keys of a family in a collection are those in its range. -/
theorem matches_rangeOf {kind : NameKind} {collection : CollectionId} {k : Key} :
    (rangeOf kind collection).matches? k.toBytes ↔ k.kind = kind ∧ k.collection = collection := by
  have hkeys : KeysOf [kind] collection k.toBytes ↔ k.kind ∈ [kind] ∧ k.collection = collection :=
    keysOf_toBytes
  simp only [KeysOf, List.mem_singleton, exists_eq_left] at hkeys
  exact hkeys

variable (hs : s.KeysNamed t) (hcalm : s.planned .findEntries = 0)

include hs hcalm

/-- The entries of some families are listed family by family, by their keys. -/
theorem entriesOfKinds_ascending (collection : CollectionId) {kinds : List NameKind}
    (hkinds : kinds.Pairwise fun a b => compare a b = .lt) :
    ∃ es, entriesOfKinds collection kinds s = .ok es s ∧
      (es.Pairwise fun a b => compare a.1 b.1 = .lt) ∧
      ∀ k value, (k, value) ∈ es ↔
        k.kind ∈ kinds ∧ k.collection = collection ∧ s.value? k.toBytes = some value := by
  -- Induction on the families, which are listed one behind the other.
  induction kinds with
  | nil => exact ⟨[], rfl, .nil, by simp⟩
  | cons kind kinds ih =>
    obtain ⟨hkind, hkinds⟩ := List.pairwise_cons.mp hkinds
    obtain ⟨more, hmore, hasc, hmem⟩ := ih hkinds
    have hfind := Store.findEntries_of_planned hcalm (rangeOf kind collection)
    rw [Store.scan_eq_filter_contents] at hfind
    have hstored : ∀ e ∈ s.contents.filter fun p => (rangeOf kind collection).matches? p.1,
        s.value? e.1 = some e.2 := fun e he =>
      Store.mem_contents_iff.mp (List.mem_filter.mp he).1
    -- Every stored key of the family is the key of a name, so all are parsed.
    obtain ⟨here, hhere⟩ := exists_parsed hs hstored
    rw [hhere] at hfind
    have hmemHere : ∀ k value, (k, value) ∈ here ↔
        k.kind = kind ∧ k.collection = collection ∧ s.value? k.toBytes = some value := by
      intro k value
      rw [← mem_map_toBytes, ← hhere, List.mem_filter, Store.mem_contents_iff, matches_rangeOf]
      tauto
    have hascHere : here.Pairwise fun a b => compare a.1 b.1 = .lt := by
      have hfilter := s.ascending_contents.filter fun p => (rangeOf kind collection).matches? p.1
      rw [hhere] at hfilter
      exact List.Pairwise.of_map _ (fun _ _ hlt => hlt) hfilter
    refine ⟨here ++ more, ?_, ?_, fun k value => ?_⟩
    · refine Action.bind_eq_ok_iff.mpr ⟨_, s, hfind, ?_⟩
      refine Action.bind_eq_ok_iff.mpr
        ⟨here, s, Action.ofExcept_eq_ok_iff.mpr ⟨parseKeys_toBytes here, rfl⟩, ?_⟩
      exact Action.bind_eq_ok_iff.mpr ⟨more, s, hmore, rfl⟩
    · refine List.pairwise_append.mpr ⟨hascHere, hasc, ?_⟩
      rintro ⟨k, value⟩ hk ⟨k', value'⟩ hk'
      -- A key starts with its family.
      refine Key.compare_of_kind_lt ?_
      rw [((hmemHere k value).mp hk).1]
      exact hkind _ ((hmem k' value').mp hk').1
    · rw [List.mem_append, hmemHere, hmem, List.mem_cons]
      tauto

/-- The entries of a collection are listed by their keys. -/
theorem entriesOf_ascending (collection : CollectionId) :
    ∃ es, entriesOf collection s = .ok es s ∧ s.Lists collection es ∧
      es.Pairwise fun a b => compare a.1 b.1 = .lt := by
  have hkinds : NameKind.all.Pairwise fun a b => compare a b = .lt := by decide
  obtain ⟨es, hes, hasc, hmem⟩ := entriesOfKinds_ascending hs hcalm collection hkinds
  refine ⟨es, hes, ⟨?_, fun k value => ?_⟩, hasc⟩
  · exact hasc.imp fun hlt heq => Key.ne_of_compare_eq_lt hlt (congrArg Prod.fst heq)
  · rw [hmem]
    exact ⟨And.right, fun h => ⟨mem_all k.kind, h⟩⟩

/-- All entries of a collection are read and listed. -/
theorem entriesOf_lists (collection : CollectionId) :
    ∃ es, entriesOf collection s = .ok es s ∧ s.Lists collection es := by
  obtain ⟨es, hes, hlists, _⟩ := entriesOf_ascending hs hcalm collection
  exact ⟨es, hes, hlists⟩

end Entries

/-! ## Counting -/

section Counting

variable {s : Store} {t : SymbolTable} {q : QName}

/-- What one entry adds to the counts. -/
theorem countEntry_eq {counts : SortedMap QName NameCount} {e : Key × Bytes}
    (hname : e.1.name t = .ok q) (hfault : (Block.scan e.2).fault? = none) :
    countEntry t counts e = .ok (counts.insert q
      (((counts.get? q).getD { name := q }).addBlocks (Block.scan e.2).blocks)) := by
  rw [countEntry, hname]
  show (NameCount.addValue _ _ >>= _) = _
  rw [NameCount.addValue_eq hfault]
  rfl

/-- For every name the blocks of its entries are added up. -/
theorem foldlM_countEntry {es : List (Key × Bytes)}
    (h : ∀ e ∈ es, (∃ q, e.1.name t = .ok q) ∧ (Block.scan e.2).fault? = none)
    (counts : SortedMap QName NameCount) :
    ∃ counts', es.foldlM (countEntry t) counts = .ok counts' ∧
      ∀ q, counts'.get? q = if Store.ofName t q es = [] then counts.get? q else
        some (((counts.get? q).getD { name := q }).addBlocks
          ((Store.ofName t q es).flatMap fun e => (Block.scan e.2).blocks)) := by
  -- Induction on the entries: the first is counted, then the others on top of it.
  induction es generalizing counts with
  | nil => exact ⟨counts, rfl, fun q => rfl⟩
  | cons e es ih =>
    obtain ⟨⟨⟨q₀, hq₀⟩, hfault⟩, hes⟩ := List.forall_mem_cons.mp h
    obtain ⟨counts', hcounts, hget⟩ := ih hes (counts.insert q₀
      (((counts.get? q₀).getD { name := q₀ }).addBlocks (Block.scan e.2).blocks))
    refine ⟨counts', ?_, fun q => ?_⟩
    · rw [List.foldlM_cons, countEntry_eq hq₀ hfault]
      exact hcounts
    rw [hget, SortedMap.get?_insert_eq]
    by_cases hq : q = q₀
    -- The entry is of this name; its blocks come before those of the others.
    · subst hq
      have hcons : Store.ofName t q (e :: es) = e :: Store.ofName t q es :=
        List.filter_cons_of_pos (by simp [hq₀, Except.toOption])
      rw [if_pos rfl, hcons, if_neg (List.cons_ne_nil _ _), List.flatMap_cons,
        NameCount.addBlocks_append]
      split
      · next hnil => rw [hnil]; rfl
      · rfl
    -- The entry is of another name, and adds nothing here.
    · have hcons : Store.ofName t q (e :: es) = Store.ofName t q es :=
        List.filter_cons_of_neg (by simp [hq₀, Except.toOption, Ne.symm hq])
      rw [if_neg hq, hcons]

/-- Some of the collections has a key of the name, which is a plain one. -/
def Counted (s : Store) (t : SymbolTable) (collections : List CollectionId) (q : QName) : Prop :=
  q.plain q.kind = q ∧ ∃ c ∈ collections, (s.valueUnder t q.kind c q).isSome

/-- The blocks under a name in some collections. -/
def blocksAmong (s : Store) (t : SymbolTable) (collections : List CollectionId) (q : QName) :
    List Block :=
  collections.flatMap fun c => s.blocksUnder t q.kind c q

/-- A name without a key has no blocks. -/
theorem blocksAmong_of_not_counted {collections : List CollectionId}
    (hq : q.plain q.kind = q) (h : ¬ Counted s t collections q) :
    blocksAmong s t collections q = [] := by
  refine List.flatMap_eq_nil_iff.mpr fun c hc => ?_
  have hnone : s.valueUnder t q.kind c q = none := by
    rw [← Option.not_isSome_iff_eq_none]
    exact fun hsome => h ⟨hq, c, hc, hsome⟩
  rw [Store.blocksUnder, hnone]
  rfl

/-- The counts of one collection: for every plain name with a key the blocks under it are
added. -/
theorem exists_countEntries {c : CollectionId} {es : List (Key × Bytes)} (hs : s.IntactFor t)
    (hlists : s.Lists c es) (counts : SortedMap QName NameCount) :
    ∃ counts', es.foldlM (countEntry t) counts = .ok counts' ∧
      ∀ q, counts'.get? q =
        if q.plain q.kind = q ∧ (s.valueUnder t q.kind c q).isSome then
          some (((counts.get? q).getD { name := q }).addBlocks (s.blocksUnder t q.kind c q))
        else counts.get? q := by
  -- No key and no value stops the count.
  have hreadable : ∀ e ∈ es, (∃ q, e.1.name t = .ok q) ∧ (Block.scan e.2).fault? = none := by
    intro e he
    obtain ⟨q, hname, _⟩ := hlists.name_of_mem hs.keys he
    exact ⟨⟨q, hname⟩, (hs.readable (hlists.value?_of_mem he)).no_fault⟩
  obtain ⟨counts', hcounts, hget⟩ := foldlM_countEntry hreadable counts
  refine ⟨counts', hcounts, fun q => ?_⟩
  rw [hget]
  by_cases hq : q.plain q.kind = q
  -- The blocks of the entries of a name are those under its key.
  · rw [hlists.blocks_ofName hs.keys hq]
    split
    · next hnil =>
      rw [if_neg fun hsome => (hlists.ofName_ne_nil_iff hs.keys hq).mpr hsome.2 hnil]
    · next hne => rw [if_pos ⟨hq, (hlists.ofName_ne_nil_iff hs.keys hq).mp hne⟩]
  · -- Only plain names are counted.
    have hnil : Store.ofName t q es = [] := by
      refine List.eq_nil_iff_forall_not_mem.mpr fun e he => hq ?_
      obtain ⟨hmem, hname⟩ := Store.mem_ofName.mp he
      obtain ⟨q', hname', hplain⟩ := hlists.name_of_mem hs.keys hmem
      rwa [Except.ok.inj (hname.symm.trans hname')]
    rw [if_pos hnil, if_neg fun hsome => hq hsome.1]

/-- The counts of some collections: for every name with a key its blocks are added up. -/
theorem countCollections_spec (hs : s.IntactFor t) (hcalm : s.planned .findEntries = 0)
    (collections : List CollectionId) (counts : SortedMap QName NameCount) :
    ∃ counts', countCollections t collections counts s = .ok counts' s ∧
      (∀ q, Counted s t collections q → counts'.get? q =
        some (((counts.get? q).getD { name := q }).addBlocks (blocksAmong s t collections q))) ∧
      ∀ q, ¬ Counted s t collections q → counts'.get? q = counts.get? q := by
  -- Induction on the collections, each of which is listed and counted.
  induction collections generalizing counts with
  | nil =>
    refine ⟨counts, rfl, ?_, fun _ _ => rfl⟩
    rintro q ⟨_, c, hc, _⟩
    cases hc
  | cons c collections ih =>
    obtain ⟨es, hes, hlists⟩ := entriesOf_lists hs.keys hcalm c
    obtain ⟨counts₁, hcounts₁, hhere⟩ := exists_countEntries hs hlists counts
    obtain ⟨counts₂, hcounts₂, hcounted, hother⟩ := ih counts₁
    refine ⟨counts₂, ?_, fun q hcount => ?_, fun q hcount => ?_⟩
    · refine Action.bind_eq_ok_iff.mpr ⟨es, s, hes, ?_⟩
      exact Action.bind_eq_ok_iff.mpr
        ⟨counts₁, s, Action.ofExcept_eq_ok_iff.mpr ⟨hcounts₁, rfl⟩, hcounts₂⟩
    · obtain ⟨hq, c', hc', hsome⟩ := hcount
      have hblocks : blocksAmong s t (c :: collections) q =
          s.blocksUnder t q.kind c q ++ blocksAmong s t collections q := List.flatMap_cons
      rw [hblocks, NameCount.addBlocks_append]
      by_cases hrest : Counted s t collections q
      · rw [hcounted q hrest, hhere q]
        split
        · rfl
        · next hnone =>
          -- Without a value there is nothing to add for the first collection.
          rw [Store.blocksUnder,
            Option.not_isSome_iff_eq_none.mp fun hsome => hnone ⟨hq, hsome⟩]
          rfl
      -- The later collections have no value, so the first one has.
      · have hfirst : (s.valueUnder t q.kind c q).isSome := by
          rcases List.mem_cons.mp hc' with rfl | hc'
          · exact hsome
          · exact absurd ⟨hq, c', hc', hsome⟩ hrest
        rw [hother q hrest, hhere q, if_pos ⟨hq, hfirst⟩, blocksAmong_of_not_counted hq hrest]
        rfl
    · have hrest : ¬ Counted s t collections q := by
        rintro ⟨hq, c', hc', hsome⟩
        exact hcount ⟨hq, c', List.mem_cons_of_mem c hc', hsome⟩
      rw [hother q hrest, hhere q,
        if_neg fun hsome => hcount ⟨hsome.1, c, List.mem_cons_self, hsome.2⟩]

end Counting

section Census

variable {i : Index}

/-- The count of a name of which some of the collections has a key: its blocks added up. -/
def IsCountOf (i : Index) (collections : List CollectionId) (c : NameCount) : Prop :=
  Counted i.store i.symbols collections c.name ∧
    c = ({ name := c.name } : NameCount).addBlocks
      (blocksAmong i.store i.symbols collections c.name)

/-- A census of an intact store answers the counts of all names with a key, by name. -/
theorem census_spec (hs : i.store.IntactFor i.symbols) (hfree : i.store.isFree .read)
    (hcalm : i.store.planned .findEntries = 0) (collections : List CollectionId) :
    ∃ counts, census collections i = .ok counts i ∧
      (counts.Pairwise fun a b => compare a.name b.name = .lt) ∧
      ∀ c, c ∈ counts ↔ IsCountOf i collections c := by
  obtain ⟨counts, hcounts, hcounted, hother⟩ :=
    countCollections_spec hs hcalm collections .empty
  have hget : ∀ q c, counts.get? q = some c ↔ c.name = q ∧ IsCountOf i collections c := by
    intro q c
    -- A name that no collection has a key of is not counted.
    by_cases hq : Counted i.store i.symbols collections q
    · rw [hcounted q hq, SortedMap.get?_empty, Option.getD_none, Option.some.injEq]
      constructor
      · rintro rfl
        have hname : (({ name := q } : NameCount).addBlocks
            (blocksAmong i.store i.symbols collections q)).name = q := by
          rw [NameCount.addBlocks_eq]
        exact ⟨hname, by rw [IsCountOf, hname]; exact ⟨hq, rfl⟩⟩
      · rintro ⟨rfl, _, hc⟩
        exact hc.symm
    · rw [hother q hq, SortedMap.get?_empty]
      constructor
      · intro h
        cases h
      · rintro ⟨rfl, h, _⟩
        exact absurd h hq
  refine ⟨counts.values, ?_, ?_, fun c => ?_⟩
  · refine Action.bind_eq_ok_iff.mpr ⟨i, i, rfl, ?_⟩
    refine Action.bind_eq_ok_iff.mpr ⟨counts, i, ?_, rfl⟩
    refine Action.on_eq_ok_iff.mpr ⟨i.store, ?_, rfl⟩
    rw [Store.locked_of_isFree hfree, hcounts]
  · -- Each count stands under its own name.
    have hnames : ∀ e ∈ counts.entries, e.2.name = e.1 := fun e he =>
      ((hget e.1 e.2).mp (SortedMap.mem_entries_iff.mp he)).1
    refine List.pairwise_map.mpr (counts.ascending.imp_of_mem fun ha hb hlt => ?_)
    rw [hnames _ ha, hnames _ hb]
    exact hlt
  -- A count is a value of the map, under its own name.
  · rw [SortedMap.mem_values_iff]
    constructor
    · rintro ⟨q, hq⟩
      exact ((hget q c).mp hq).2
    · exact fun h => ⟨c.name, (hget c.name c).mpr ⟨rfl, h⟩⟩

/-- The documents with a node in these blocks, each once. -/
def documentsIn (bs : List Block) : List DocId :=
  ((bs.filter fun b => !b.content.isEmpty).map (·.doc)).dedup

/-- As many blocks as documents means one block for each document. -/
theorem length_eq_length_documentsIn_iff {bs : List Block} (h : ∀ b ∈ bs, b.content ≠ []) :
    bs.length = (documentsIn bs).length ↔ (bs.map (·.doc)).Nodup := by
  -- No block is without entries, so all of them count.
  have hall : bs.filter (fun b => !b.content.isEmpty) = bs :=
    List.filter_eq_self.mpr fun b hb => by simpa using h b hb
  rw [documentsIn, hall]
  constructor
  · intro hlength
    refine List.dedup_eq_self.mp ((List.dedup_sublist _).eq_of_length ?_)
    rw [← hlength, List.length_map]
  · intro hnodup
    rw [hnodup.dedup, List.length_map]

/-- The headers of intact blocks declare as many nodes as there are. -/
theorem sum_count_eq {bs : List Block} (h : ∀ b ∈ bs, b.Sound) :
    (bs.map (·.count.toNat)).sum = (bs.flatMap (·.content)).length := by
  induction bs with
  | nil => rfl
  | cons b bs ih =>
    obtain ⟨hb, hbs⟩ := List.forall_mem_cons.mp h
    have hcount := (Block.entries_eq_ok_iff.mp hb.entries_eq).2
    rw [List.map_cons, List.sum_cons, ih hbs, List.flatMap_cons, List.length_append, hcount]

/-- With every document in one collection, a document has two blocks among those of a name only
if it has them in one collection. -/
theorem nodup_docs_blocksAmong_iff {collections : List CollectionId} {q : QName}
    {home : DocId → CollectionId} (hdistinct : collections.Nodup)
    (hhome : ∀ c, ∀ b ∈ i.store.blocksUnder i.symbols q.kind c q, home b.doc = c) :
    ((blocksAmong i.store i.symbols collections q).map (·.doc)).Nodup ↔
      ∀ c ∈ collections, ((i.store.blocksUnder i.symbols q.kind c q).map (·.doc)).Nodup := by
  rw [blocksAmong, List.map_flatMap, List.nodup_flatMap]
  -- Blocks in different collections are of different documents.
  refine and_iff_left (hdistinct.imp fun {c c'} hne => ?_)
  intro doc hdoc hdoc'
  obtain ⟨b, hb, hbdoc⟩ := List.mem_map.mp hdoc
  obtain ⟨b', hb', hbdoc'⟩ := List.mem_map.mp hdoc'
  apply hne
  rw [← hhome c b hb, ← hhome c' b' hb', hbdoc, hbdoc']

/-- In every state that a run comes to, a census that gets the lock answers one count for each
name of which a collection has a key, ascending by name.  It counts as nodes the entries under
the name and as documents the blocks; these are as many as the documents with a node there
exactly if no document has two blocks under the name in its collection. -/
theorem Run.census_counts {admits : Op → Prop} {calls : List (Op × Except Error Unit)}
    (h : Run admits calls i) (hfree : i.store.isFree .read)
    (hcalm : i.store.planned .findEntries = 0) (collections : List CollectionId)
    (hdistinct : collections.Nodup) :
    ∃ counts, census collections i = .ok counts i ∧
      (counts.Pairwise fun a b => compare a.name b.name = .lt) ∧
      (∀ q, (∃ c ∈ counts, c.name = q.plain q.kind) ↔
        ∃ collection ∈ collections,
          (i.store.valueUnder i.symbols q.kind collection q).isSome) ∧
      ∀ c ∈ counts, c.name.plain c.name.kind = c.name ∧
        c.nodes =
          ((blocksAmong i.store i.symbols collections c.name).flatMap (·.content)).length ∧
        c.documents = (blocksAmong i.store i.symbols collections c.name).length ∧
        ∀ home : DocId → CollectionId,
          (∀ collection, ∀ b ∈ i.store.blocksUnder i.symbols c.name.kind collection c.name,
            home b.doc = collection) →
          (c.documents =
              (documentsIn (blocksAmong i.store i.symbols collections c.name)).length ↔
            ∀ collection ∈ collections,
              ((i.store.blocksUnder i.symbols c.name.kind collection c.name).map
                (·.doc)).Nodup) := by
  have hs := h.intact
  obtain ⟨counts, hcensus, hascending, hmem⟩ := census_spec hs hfree hcalm collections
  refine ⟨counts, hcensus, hascending, fun q => ?_, fun c hc => ?_⟩
  -- A count stands under the plain part of the names it is for.
  · have hkind : (q.plain q.kind).kind = q.kind := rfl
    constructor
    · rintro ⟨c, hc, hname⟩
      obtain ⟨⟨_, collection, hcoll, hsome⟩, _⟩ := (hmem c).mp hc
      rw [hname, hkind, Store.valueUnder_plain] at hsome
      exact ⟨collection, hcoll, hsome⟩
    · rintro ⟨collection, hcoll, hsome⟩
      refine ⟨_, (hmem (({ name := q.plain q.kind } : NameCount).addBlocks
        (blocksAmong i.store i.symbols collections (q.plain q.kind)))).mpr ?_, ?_⟩
      · rw [IsCountOf, NameCount.addBlocks_eq]
        refine ⟨⟨QName.plain_plain q.kind q, collection, hcoll, ?_⟩,
          (NameCount.addBlocks_eq _ _).symm⟩
        show (i.store.valueUnder i.symbols q.kind collection (q.plain q.kind)).isSome
        rwa [Store.valueUnder_plain]
      · rw [NameCount.addBlocks_eq]
  · obtain ⟨⟨hplain, _⟩, hcount⟩ := (hmem c).mp hc
    -- Every block is of a document with a node in it, and declares as many as it has.
    have hblocks : ∀ b ∈ blocksAmong i.store i.symbols collections c.name,
        b.Sound ∧ b.content ≠ [] := by
      intro b hb
      obtain ⟨collection, _, hb⟩ := List.mem_flatMap.mp hb
      have hintact := hs.intact_blocksUnder c.name.kind collection c.name
      exact ⟨hintact.sound b hb, hintact.nonempty b hb⟩
    rw [NameCount.addBlocks_eq] at hcount
    have hnodes := congrArg NameCount.nodes hcount
    have hdocuments := congrArg NameCount.documents hcount
    simp only [Nat.zero_add] at hnodes hdocuments
    refine ⟨hplain, ?_, hdocuments, fun home hhome => ?_⟩
    · rw [hnodes, sum_count_eq fun b hb => (hblocks b hb).1]
    -- Blocks count documents exactly if no document has two of them.
    · rw [hdocuments, length_eq_length_documentsIn_iff fun b hb => (hblocks b hb).2]
      exact nodup_docs_blocksAmong_iff hdistinct hhome

/-! ## A document loaded in two parts -/

/-- The index after a first load of one node. -/
def loadedOnce : Index := Action.stateOf ((Op.flush oneNode).run fresh)

/-- The index after a first load and an addition. -/
def loadedTwice : Index := Action.stateOf ((Op.flush anotherNode).run loadedOnce)

/-- A run leads there. -/
theorem run_loadedTwice : Run (fun _ => True)
    [(.flush oneNode, .ok ()), (.flush anotherNode, .ok ())] loadedTwice :=
  .call (run_flush_oneNode (fun _ => True) trivial) trivial fits_anotherNode

/-- The two blocks under the name. -/
theorem blocksUnder_loadedTwice :
    loadedTwice.store.blocksUnder loadedTwice.symbols .attrId 7
      { localName := "id", kind := .attrId } =
    [blockOfNode .ordered 1, blockOfNode .unordered 2] := by
  have hvalue : loadedTwice.store.valueUnder loadedTwice.symbols .attrId 7
      { localName := "id", kind := .attrId } =
      some (oneNode.blockOf [{ doc := 1, node := ⟨[1]⟩ }] ++
        anotherNode.blockOf [{ doc := 1, node := ⟨[2]⟩ }]) := rfl
  rw [Store.blocksUnder, hvalue, valueOf_blockOfNode, blocksOf]
  exact congrArg Framing.blocks scan_blockOfNode

/-- There are two blocks of the document under the name. -/
theorem blocksAmong_loadedTwice :
    blocksAmong loadedTwice.store loadedTwice.symbols [7] { localName := "id", kind := .attrId } =
      [blockOfNode .ordered 1, blockOfNode .unordered 2] := by
  rw [blocksAmong, List.flatMap_singleton]
  exact blocksUnder_loadedTwice

/-- There is nothing under the name in another collection. -/
theorem eq_of_mem_blocksUnder_loadedTwice {collection : CollectionId} {b : Block}
    (hb : b ∈ loadedTwice.store.blocksUnder loadedTwice.symbols .attrId collection
      { localName := "id", kind := .attrId }) : 7 = collection := by
  have hkeys : loadedTwice.store.entries.entries.map Prod.fst =
      [(Key.verbatim 7 "id").toBytes] := rfl
  have hvalue : loadedTwice.store.valueUnder loadedTwice.symbols .attrId collection
      { localName := "id", kind := .attrId } =
      loadedTwice.store.value? (Key.verbatim collection "id").toBytes := rfl
  rw [Store.blocksUnder, hvalue] at hb
  -- The store has one key, and that is of collection 7.
  cases hslot : loadedTwice.store.entries.get? (Key.verbatim collection "id").toBytes with
  | none =>
    rw [Store.value?, hslot] at hb
    cases hb
  | some slot =>
    have hmem := List.mem_map_of_mem (f := Prod.fst) (SortedMap.mem_entries_iff.mpr hslot)
    rw [hkeys, List.mem_singleton] at hmem
    exact congrArg Key.collection (Key.toBytes_inj hmem).symm

/-- The two nodes of the one document are counted rightly, but the document is counted twice, once
for each of its blocks. -/
theorem census_counts_loadedTwice : ∃ counts, census [7] loadedTwice = .ok counts loadedTwice ∧
    ∃ c ∈ counts, c.name = { localName := "id", kind := .attrId } ∧ c.nodes = 2 ∧
      c.documents = 2 ∧ c.documents ≠
        (documentsIn (blocksAmong loadedTwice.store loadedTwice.symbols [7] c.name)).length := by
  obtain ⟨counts, hcensus, _, hnames, hcounts⟩ :=
    run_loadedTwice.census_counts rfl rfl [7] (by decide)
  obtain ⟨c, hc, hname⟩ : ∃ c ∈ counts, c.name = { localName := "id", kind := .attrId } :=
    (hnames { localName := "id", kind := .attrId }).mpr ⟨7, by decide, rfl⟩
  obtain ⟨_, hnodes, hdocuments, hdistinct⟩ := hcounts c hc
  rw [hname] at hnodes hdocuments hdistinct
  refine ⟨counts, hcensus, c, hc, hname, ?_, ?_, fun heq => ?_⟩
  · rw [hnodes, blocksAmong_loadedTwice, List.flatMap_cons, List.flatMap_singleton,
      content_blockOfNode _ (.inl rfl), content_blockOfNode _ (.inr rfl)]
    rfl
  · rw [hdocuments, blocksAmong_loadedTwice]
    rfl
  -- Were the documents counted rightly, each would have one block.
  · rw [hname] at heq
    have hnodup := (hdistinct (fun _ => 7) fun _ _ => eq_of_mem_blocksUnder_loadedTwice).mp heq 7
      (List.mem_singleton.mpr rfl)
    rw [show loadedTwice.store.blocksUnder _ _ _ _ = _ from blocksUnder_loadedTwice] at hnodup
    exact absurd hnodup (by decide)

/-- A census counts the one document with the name twice. -/
theorem census_loadedTwice : ∃ counts c, Run (fun _ => True)
      [(.flush oneNode, .ok ()), (.flush anotherNode, .ok ())] loadedTwice ∧
    census [7] loadedTwice = .ok counts loadedTwice ∧ c ∈ counts ∧
    c.name = { localName := "id", kind := .attrId } ∧ c.nodes = 2 ∧ c.documents = 2 ∧
    documentsIn (blocksAmong loadedTwice.store loadedTwice.symbols [7] c.name) = [1] := by
  obtain ⟨counts, hcensus, _, hmem⟩ := census_spec run_loadedTwice.intact rfl rfl [7]
  refine ⟨counts, ⟨{ localName := "id", kind := .attrId }, 2, 2⟩, run_loadedTwice, hcensus,
    (hmem _).mpr ⟨⟨rfl, 7, by decide, rfl⟩, ?_⟩, rfl, rfl, rfl, ?_⟩
  · rw [blocksAmong_loadedTwice]
    rfl
  -- Both blocks have an entry, so both belong to a document with the name.
  · have hcontent : ∀ b ∈ [blockOfNode .ordered 1, blockOfNode .unordered 2],
        b.content ≠ [] := by
      simp only [List.forall_mem_cons, List.not_mem_nil, false_implies, implies_true, and_true]
      rw [content_blockOfNode _ (.inl rfl), content_blockOfNode _ (.inr rfl)]
      exact ⟨List.cons_ne_nil _ _, List.cons_ne_nil _ _⟩
    rw [blocksAmong_loadedTwice, documentsIn,
      List.filter_eq_self.mpr fun b hb => by simpa using hcontent b hb]
    rfl

end Census

end Index

end XmlIndex
