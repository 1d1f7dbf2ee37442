import XmlIndex.Index.Statistics
import XmlIndex.Proofs.AlikeIndexes
import XmlIndex.Proofs.CensusCounts
import XmlIndex.Proofs.DocumentParts

/-! # Reports on alike indexes

A census and the statistics of a collection go through all its keys, in the order of the keys
and so of the codes.  What they tell does not depend on that order: it is a sum over the keys,
and so one over the names with a key (`Store.Lists.perm_measures`).  Indexes that have values
with the same parts under every name therefore have the same statistics and the same census
(`Index.Alike.agree_statistics`, `Index.Alike.agree_census`). -/

namespace XmlIndex

open XmlIndex.Action

/-! ## Statistics -/

namespace Statistics

/-- The size of a collection with these entries. -/
def ofEntries (collection : CollectionId) (es : List (Key × Bytes)) : Statistics where
  collection := collection
  keys := (es.map fun _ => 1).sum
  blocks := (es.map fun e => (Block.scan e.2).blocks.length).sum
  unorderedBlocks := (es.map fun e => (Block.scan e.2).blocks.countP (!·.order.isOrdered)).sum
  nodes := (es.map fun e => ((Block.scan e.2).blocks.map (·.count.toNat)).sum).sum
  valueBytes := (es.map fun e => e.2.length).sum

/-- Blocks are added up. -/
theorem foldl_addBlock (s : Statistics) (bs : List Block) :
    bs.foldl addBlock s = { s with
      blocks := s.blocks + bs.length
      unorderedBlocks := s.unorderedBlocks + bs.countP (!·.order.isOrdered)
      nodes := s.nodes + (bs.map (·.count.toNat)).sum } := by
  induction bs generalizing s with
  | nil => rfl
  | cons b bs ih =>
    rw [List.foldl_cons, ih]
    -- Only an unordered block counts as one.
    cases hb : b.order.isOrdered <;>
      simp only [addBlock, hb, List.length_cons, List.countP_cons, List.map_cons, List.sum_cons,
        mk.injEq, true_and, if_true, if_false, Bool.not_true, Bool.not_false,
        Bool.false_eq_true, and_true] <;> omega

/-- A value without a fault is added by its blocks. -/
theorem addValue_eq {value : Bytes} (h : (Block.scan value).fault? = none) (s : Statistics) :
    s.addValue value = .ok ((Block.scan value).blocks.foldl addBlock
      { s with keys := s.keys + 1, valueBytes := s.valueBytes + value.length }) := by
  rw [addValue, Framing.fold_of_no_fault h]
  exact Framing.foldlM_eq_ok (fun _ _ _ => rfl) _

/-- The entries are added up. -/
theorem foldlM_addValue {es : List (Key × Bytes)}
    (h : ∀ e ∈ es, (Block.scan e.2).fault? = none) (s : Statistics) :
    es.foldlM (fun s e => s.addValue e.2) s = .ok
      { s with
        keys := s.keys + (ofEntries s.collection es).keys
        blocks := s.blocks + (ofEntries s.collection es).blocks
        unorderedBlocks := s.unorderedBlocks + (ofEntries s.collection es).unorderedBlocks
        nodes := s.nodes + (ofEntries s.collection es).nodes
        valueBytes := s.valueBytes + (ofEntries s.collection es).valueBytes } := by
  -- Induction on the entries; each value is one key.
  induction es generalizing s with
  | nil => rfl
  | cons e es ih =>
    obtain ⟨he, hes⟩ := List.forall_mem_cons.mp h
    rw [List.foldlM_cons, addValue_eq he, foldl_addBlock]
    refine (ih hes _).trans (congrArg _ ?_)
    simp only [ofEntries, List.map_cons, List.sum_cons, mk.injEq, true_and]
    omega

end Statistics

namespace Index

variable {T : Interner → Interner → Prop} {tolerated : Error → Prop} {i i' : Index}

/-- Values of the same parts have the same measure, if that does not go by their order. -/
theorem SameParts.map_eq {value? value?' : Option Bytes} (h : SameParts value? value?')
    {g : Bytes → Nat}
    (hg : ∀ bs bs', Block.Intact bs → Block.Intact bs' → bs.Perm bs' →
      g (Block.valueOf bs) = g (Block.valueOf bs')) : value?.map g = value?'.map g := by
  rcases h.cases with ⟨rfl, rfl⟩ | ⟨bs, bs', hbs, hbs', rfl, rfl, hparts⟩
  · rfl
  · exact congrArg some (hg bs bs' hbs hbs' (Block.perm_of_part hparts))

/-- Values with the same parts are of one length. -/
theorem length_valueOf_perm {bs bs' : List Block} (h : bs.Perm bs') :
    (Block.valueOf bs).length = (Block.valueOf bs').length :=
  (h.flatMap_right _).length_eq

namespace Alike

/-- Both stores are intact. -/
theorem intactFor (h : Alike T SameParts i i') :
    i.store.IntactFor i.symbols ∧ i'.store.IntactFor i'.symbols := by
  refine ⟨⟨fun key value hv => ?_, h.named⟩, ⟨fun key value hv => ?_, h.named'⟩⟩
  -- Every key is that of a name, so what is known by name covers all values.
  · obtain ⟨kind, collection, q, k, hk, rfl⟩ := h.named key (by rw [hv]; rfl)
    refine (h.values kind collection q).intact value ?_
    rw [Store.valueUnder_of_lookup? hk, hv]
  · obtain ⟨kind, collection, q, k, hk, rfl⟩ := h.named' key (by rw [hv]; rfl)
    refine (h.values kind collection q).intact' value ?_
    rw [Store.valueUnder_of_lookup? hk, hv]

/-- The listings of a collection in both stores have the same size. -/
theorem ofEntries_eq (h : Alike T SameParts i i') {collection : CollectionId}
    {es es' : List (Key × Bytes)} (hes : i.store.Lists collection es)
    (hes' : i'.store.Lists collection es') :
    Statistics.ofEntries collection es = Statistics.ofEntries collection es' := by
  obtain ⟨hs, hs'⟩ := h.intactFor
  -- Each number is a sum over the keys, of a measure that does not depend on the order of blocks.
  have hsum : ∀ g : Bytes → Nat, (∀ bs bs', Block.Intact bs → Block.Intact bs' → bs.Perm bs' →
        g (Block.valueOf bs) = g (Block.valueOf bs')) →
      (es.map fun e => g e.2).sum = (es'.map fun e => g e.2).sum := fun g hg =>
    (hes.perm_measures hes' hs.keys hs'.keys g fun kind q =>
      (h.values kind collection q).map_eq hg).sum_nat
  -- The five numbers are five such measures.
  have hkeys := hsum (fun _ => 1) fun _ _ _ _ _ => rfl
  have hblocks := hsum (fun value => (Block.scan value).blocks.length)
    fun bs bs' hbs hbs' hperm => by
      rw [hbs.scan_eq, hbs'.scan_eq]
      exact hperm.length_eq
  have hunordered := hsum (fun value => (Block.scan value).blocks.countP (!·.order.isOrdered))
    fun bs bs' hbs hbs' hperm => by
      rw [hbs.scan_eq, hbs'.scan_eq]
      exact hperm.countP_eq _
  have hnodes := hsum (fun value => ((Block.scan value).blocks.map (·.count.toNat)).sum)
    fun bs bs' hbs hbs' hperm => by
      rw [hbs.scan_eq, hbs'.scan_eq]
      exact (hperm.map _).sum_nat
  have hbytes := hsum List.length fun bs bs' _ _ hperm => length_valueOf_perm hperm
  simp only [Statistics.ofEntries, hkeys, hblocks, hunordered, hnodes, hbytes]

/-- The statistics of a collection are the same. -/
theorem agree_statistics (h : Alike T SameParts i i') (collection : CollectionId) :
    Agree tolerated (Alike T SameParts) Eq (statistics collection i)
      (statistics collection i') := by
  obtain ⟨hs, hs'⟩ := h.intactFor
  obtain ⟨es, hentries, hes⟩ := entriesOf_lists hs.keys (h.calm .findEntries) collection
  obtain ⟨es', hentries', hes'⟩ := entriesOf_lists hs'.keys (h.calm' .findEntries) collection
  -- Neither walk ends early, so each adds up its list of entries to the end.
  have hfault : ∀ {s : Store} {t : SymbolTable} {es : List (Key × Bytes)},
      s.IntactFor t → s.Lists collection es → ∀ e ∈ es, (Block.scan e.2).fault? = none :=
    fun hs hes e he => (hs.readable (hes.value?_of_mem he)).no_fault
  unfold statistics onStore
  refine Agree.on (S := fun s s' => Alike T SameParts { i with store := s } { i' with store := s' })
    (Store.agree_locked (h.free .read) h fun _ => ?_) fun _ _ hstores => hstores
  rw [bind_of_ok hentries, bind_of_ok hentries', Statistics.foldlM_addValue (hfault hs hes),
    Statistics.foldlM_addValue (hfault hs' hes'), h.ofEntries_eq hes hes']
  exact .ok rfl h

/-! ## Census -/

/-- A name is counted in both or in neither, and with the same blocks. -/
theorem isCountOf_iff (h : Alike T SameParts i i') (collections : List CollectionId)
    (c : NameCount) : IsCountOf i collections c ↔ IsCountOf i' collections c := by
  have hcounted : Counted i.store i.symbols collections c.name ↔
      Counted i'.store i'.symbols collections c.name := by
    simp only [Counted, fun kind c q => (h.values kind c q).isSome_eq]
  -- The blocks may come in another order, which sums and lengths do not tell.
  have hperm : (blocksAmong i.store i.symbols collections c.name).Perm
      (blocksAmong i'.store i'.symbols collections c.name) :=
    List.Perm.flatMap_left _ fun collection _ => (h.values _ collection _).perm
  rw [IsCountOf, IsCountOf, hcounted, NameCount.addBlocks_eq, NameCount.addBlocks_eq,
    (hperm.map _).sum_nat, hperm.length_eq]

/-- A census needs the lock. -/
theorem census_of_not_isFree (hfree : i.store.isFree .read = false)
    {collections : List CollectionId} : census collections i =
      .error (.lockUnavailable .read i.store.name i.store.timeout.toText) i := by
  refine bind_eq_error_iff.mpr (.inr ⟨i, i, rfl, bind_eq_error_iff.mpr (.inl ?_)⟩)
  exact on_eq_error_iff.mpr ⟨i.store, Store.locked_of_not_isFree hfree _, rfl⟩

/-- A census tells the same. -/
theorem agree_census (h : Alike T SameParts i i') (collections : List CollectionId) :
    Agree tolerated (Alike T SameParts) Eq (census collections i) (census collections i') := by
  -- Both get the lock, or neither does.
  cases hfree : i.store.isFree .read with
  | false =>
    rw [census_of_not_isFree hfree, census_of_not_isFree ((h.free .read).trans hfree)]
    exact .error rfl h
  | true =>
    obtain ⟨hs, hs'⟩ := h.intactFor
    obtain ⟨counts, hcounts, hasc, hmem⟩ := census_spec hs hfree (h.calm .findEntries) collections
    obtain ⟨counts', hcounts', hasc', hmem'⟩ := census_spec hs' ((h.free .read).trans hfree)
      (h.calm' .findEntries) collections
    rw [hcounts, hcounts']
    refine .ok ?_ h
    have hnodup : ∀ {l : List NameCount}, (l.Pairwise fun a b => compare a.name b.name = .lt) →
        l.Nodup := fun hl => hl.imp fun hlt heq =>
      SortedMap.ne_of_compare_eq_lt hlt (congrArg NameCount.name heq)
    refine SortedMap.eq_of_perm_of_ascending NameCount.name ?_ hasc hasc'
    refine (List.perm_ext_iff_of_nodup (hnodup hasc) (hnodup hasc')).mpr fun c => ?_
    rw [hmem, hmem', h.isCountOf_iff]

end Alike

end Index

end XmlIndex
