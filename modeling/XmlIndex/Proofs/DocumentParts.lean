import Mathlib.Data.List.Count
import XmlIndex.Proofs.IndexRuns
import XmlIndex.Proofs.JoinBruteForce
import XmlIndex.Proofs.QueryIsolation
import XmlIndex.Proofs.SelectedNodes

/-! # Values with the same blocks of every document

The blocks of different documents under one key can stand in any order; those of one document
keep theirs.  Values that differ in such an order only have the same parts
(`Index.SameParts`): for every document, the same blocks one after the other.

What a query takes from a block goes to the references of its document, if the selector keeps to
the document it is asked about (`Selector.KeepsToDocument`).  So visits to blocks of different
documents can be exchanged (`Findings.LocalTo.comm`), and a query makes the same of values with
the same parts (`Index.sameVisit_addBlock`, `Index.sameVisit_joinBlock`). -/

namespace XmlIndex

/-! ## Parts -/

namespace Block

variable {bs bs' : List Block} {b : Block} {doc : DocId}

/-- The blocks of a document. -/
def part (doc : DocId) (bs : List Block) : List Block := bs.filter (·.doc == doc)

/-- The blocks of a document in two lists are those in the first and then those in the second. -/
theorem part_append (doc : DocId) (bs cs : List Block) :
    part doc (bs ++ cs) = part doc bs ++ part doc cs := List.filter_append ..

/-- A block in front is the first one of its document. -/
theorem part_cons_self (b : Block) (bs : List Block) : part b.doc (b :: bs) = b :: part b.doc bs :=
  List.filter_cons_of_pos (by simp)

/-- A block of another document in front does not count. -/
theorem part_cons_of_ne (h : b.doc ≠ doc) (bs : List Block) :
    part doc (b :: bs) = part doc bs := List.filter_cons_of_neg (by simp [h])

/-- A document has no part where no block is of it. -/
theorem part_eq_nil_iff : part doc bs = [] ↔ ∀ b ∈ bs, b.doc ≠ doc := by
  simp [part, List.filter_eq_nil_iff]

/-- The blocks of the other documents are not of this one. -/
theorem part_others_self (doc : DocId) (bs : List Block) : part doc (others doc bs) = [] :=
  part_eq_nil_iff.mpr fun b hb => by simpa using (List.mem_filter.mp hb).2

/-- Leaving out a document keeps the parts of the others. -/
theorem part_others_of_ne {doc' : DocId} (h : doc' ≠ doc) (bs : List Block) :
    part doc' (others doc bs) = part doc' bs := by
  rw [part, others, List.filter_filter]
  refine List.filter_congr fun b _ => ?_
  by_cases hb : b.doc = doc' <;> simp [hb, h]

/-- The entries of a document are those of its blocks. -/
theorem entriesIn_eq_part (doc : DocId) (bs : List Block) :
    entriesIn doc bs = (part doc bs).flatMap (·.content) := rfl

/-- The same parts mean the same blocks. -/
theorem perm_of_part (h : ∀ doc, part doc bs = part doc bs') : bs.Perm bs' := by
  refine List.perm_iff_count.mpr fun b => ?_
  have hcount : ∀ cs : List Block, (part b.doc cs).count b = cs.count b := fun cs =>
    List.count_filter (by simp)
  rw [← hcount, h, hcount]

/-- The first block of a document stands behind blocks of other documents. -/
theorem exists_front {rest : List Block} (h : part b.doc bs = b :: rest) :
    ∃ front back, bs = front ++ b :: back ∧ ∀ b' ∈ front, b'.doc ≠ b.doc := by
  -- Induction on the blocks in front of the one that is looked for.
  induction bs with
  | nil => cases h
  | cons b' bs ih =>
    by_cases hdoc : b'.doc = b.doc
    · have hself := part_cons_self b' bs
      rw [hdoc, h] at hself
      obtain rfl := (List.cons.inj hself).1
      exact ⟨[], bs, rfl, fun _ hb => absurd hb List.not_mem_nil⟩
    · rw [part_cons_of_ne hdoc] at h
      obtain ⟨front, back, rfl, hfront⟩ := ih h
      exact ⟨b' :: front, back, rfl, List.forall_mem_cons.mpr ⟨hdoc, hfront⟩⟩

section Folds

variable {β : Type} {go : β → Block → β}
  (comm : ∀ x (b b' : Block), b.doc ≠ b'.doc → go (go x b) b' = go (go x b') b)

include comm

/-- A visit may be moved in front of visits to blocks of other documents. -/
theorem foldl_exchange (front : List Block) (h : ∀ b' ∈ front, b'.doc ≠ b.doc) (x : β) :
    go (front.foldl go x) b = front.foldl go (go x b) := by
  induction front generalizing x with
  | nil => rfl
  | cons b' front ih =>
    obtain ⟨hb', hfront⟩ := List.forall_mem_cons.mp h
    rw [List.foldl_cons, List.foldl_cons, ih hfront, comm x b' b hb']

/-- Where visits to blocks of different documents can be exchanged, only the parts matter. -/
theorem foldl_eq_of_part (h : ∀ doc, part doc bs = part doc bs') (x : β) :
    bs.foldl go x = bs'.foldl go x := by
  -- Induction on the blocks: the first one is exchanged to the front of the others.
  induction bs generalizing bs' x with
  | nil =>
    cases bs' with
    | nil => rfl
    | cons b bs' =>
      have hb := h b.doc
      rw [part_cons_self] at hb
      cases hb
  | cons b bs ih =>
    have hb := h b.doc
    rw [part_cons_self] at hb
    obtain ⟨front, back, rfl, hfront⟩ := exists_front hb.symm
    -- Without that block the parts are still the same.
    have hrest : ∀ doc, part doc bs = part doc (front ++ back) := by
      intro doc
      have hdoc := h doc
      by_cases hb : b.doc = doc
      · subst hb
        rw [part_append, part_eq_nil_iff.mpr hfront, part_cons_self, part_cons_self,
          List.nil_append] at hdoc
        rw [part_append, part_eq_nil_iff.mpr hfront, List.nil_append]
        exact (List.cons.inj hdoc).2
      -- In the parts of other documents the block did not count.
      · rwa [part_cons_of_ne hb, part_append, part_cons_of_ne hb, ← part_append] at hdoc
    rw [List.foldl_cons, ih hrest, List.foldl_append, List.foldl_append, List.foldl_cons,
      foldl_exchange comm front hfront]

end Folds

end Block

/-! ## Findings of different documents -/

namespace Findings

/-- The change is one of the references of a document, and the findings may get incomplete. -/
def LocalTo (doc : DocId) (g : Findings → Findings) : Prop :=
  ∃ (change : Option DocumentNodes → Option DocumentNodes) (complete : Bool), ∀ f,
    (∀ d, (g f).nodes.docs.get? d =
      if d = doc then change (f.nodes.docs.get? d) else f.nodes.docs.get? d) ∧
    (g f).complete = (f.complete && complete) ∧
    (g f).nodes.documentSet? = f.nodes.documentSet?

/-- Findings are the same if they are for every document, and in what is said of all of them. -/
theorem ext_docs {f f' : Findings} (hdocs : ∀ d, f.nodes.docs.get? d = f'.nodes.docs.get? d)
    (hcomplete : f.complete = f'.complete)
    (hset : f.nodes.documentSet? = f'.nodes.documentSet?) : f = f' := by
  obtain ⟨⟨docs, set⟩, complete⟩ := f
  obtain ⟨⟨docs', set'⟩, complete'⟩ := f'
  obtain rfl : docs = docs' := SortedMap.ext_get? hdocs
  obtain rfl : complete = complete' := hcomplete
  obtain rfl : set = set' := hset
  rfl

namespace LocalTo

variable {doc doc' : DocId} {g g' : Findings → Findings}

/-- To change nothing is to change one document at most. -/
theorem id (doc : DocId) : LocalTo doc id := by
  refine ⟨fun v => v, true, fun f => ⟨fun d => ?_, (Bool.and_true _).symm, rfl⟩⟩
  exact (ite_self _).symm

/-- Two changes of one document are one. -/
theorem comp (h' : LocalTo doc g') (h : LocalTo doc g) : LocalTo doc fun f => g' (g f) := by
  obtain ⟨change, complete, hg⟩ := h
  obtain ⟨change', complete', hg'⟩ := h'
  refine ⟨fun v => change' (change v), complete && complete', fun f => ⟨fun d => ?_, ?_, ?_⟩⟩
  · rw [(hg' (g f)).1, (hg f).1]
    split <;> rfl
  · rw [(hg' (g f)).2.1, (hg f).2.1, Bool.and_assoc]
  · rw [(hg' (g f)).2.2, (hg f).2.2]

/-- Changes of different documents can be exchanged. -/
theorem comm (h : LocalTo doc g) (h' : LocalTo doc' g') (hne : doc ≠ doc') (f : Findings) :
    g (g' f) = g' (g f) := by
  obtain ⟨change, complete, hg⟩ := h
  obtain ⟨change', complete', hg'⟩ := h'
  apply ext_docs
  · intro d
    rw [(hg _).1, (hg' f).1, (hg' _).1, (hg f).1]
    -- For every document, one of the two changes does nothing.
    by_cases hd : d = doc
    · rw [if_pos hd, if_pos hd, if_neg fun hd' => hne (hd.symm.trans hd')]
      exact (if_neg fun hd' => hne (hd.symm.trans hd')).symm
    · simp only [if_neg hd]
  · rw [(hg _).2.1, (hg' f).2.1, (hg' _).2.1, (hg f).2.1, Bool.and_right_comm]
  · rw [(hg _).2.2, (hg' f).2.2, (hg' _).2.2, (hg f).2.2]

/-- Changes of one document in a row are one. -/
theorem foldl {α : Type} {step : Findings → α → Findings} (l : List α)
    (h : ∀ a ∈ l, LocalTo doc (step · a)) : LocalTo doc fun f => l.foldl step f := by
  induction l with
  | nil => exact id doc
  | cons a l ih =>
    obtain ⟨ha, hl⟩ := List.forall_mem_cons.mp h
    exact (ih hl).comp ha

/-- To say that something is missing changes no references. -/
theorem incomplete (doc : DocId) : LocalTo doc fun f => { f with complete := false } := by
  refine ⟨fun v => v, false, fun f => ⟨fun d => ?_, (Bool.and_false _).symm, rfl⟩⟩
  exact (ite_self _).symm

/-- A reference is added to its own document. -/
theorem add {r : NodeRef} (h : r.doc = doc) :
    LocalTo doc fun f => { f with nodes := f.nodes.add r } := by
  subst h
  refine ⟨fun before => some ((before.getD .empty).add r), true,
    fun f => ⟨fun d => ?_, (Bool.and_true _).symm, rfl⟩⟩
  -- Of the map only the part of this document changes.
  simp only [NodeSet.add, SortedMap.get?_insert_eq]
  split
  · next hd => rw [hd]
  · rfl

/-- The flag of a document is its own. -/
theorem noteSorted (doc : DocId) (sorted : Bool) :
    LocalTo doc fun f => { f with nodes := f.nodes.noteSorted doc sorted } := by
  refine ⟨fun before => before.map fun d => { d with sorted := d.sorted && sorted }, true,
    fun f => ⟨fun d => ?_, (Bool.and_true _).symm, rfl⟩⟩
  simp only [NodeSet.noteSorted, SortedMap.get?_modify]
  split
  · next hd => rw [hd]
  · rfl

end LocalTo

end Findings

/-! ## Visits -/

namespace Findings

variable {kind : NameKind} {select? : Option Selector} {docs : DocumentSet} {ds : List Document}

/-- What an entry adds is a reference to its document, or nothing. -/
theorem localTo_addEntry (h : ∀ select ∈ select?, select.KeepsToDocument) (document : Document)
    (entry : Entry) : LocalTo document.id (addEntry kind select? document · entry) := by
  simp only [addEntry_eq]
  cases hchoice : choice kind select? document entry with
  | none => exact .incomplete _
  | some r => exact .add (doc_of_choice h hchoice)

/-- What a block adds are references to its document. -/
theorem localTo_added (h : ∀ select ∈ select?, select.KeepsToDocument) (b : Block) :
    LocalTo b.doc (added kind select? (.ofList ds) b) := by
  unfold added
  cases hd : (DocumentSet.ofList ds).get? b.doc with
  | none => exact .id b.doc
  | some document =>
    rw [← DocumentSet.id_of_get?_ofList hd]
    exact (LocalTo.noteSorted _ _).comp (.foldl _ fun entry _ => localTo_addEntry h document entry)

/-- What a join takes from a block are references to its document. -/
theorem localTo_joined {axis : Axis} {context : NodeSet} {contextId? : Option UInt32} (b : Block) :
    LocalTo b.doc fun f => { f with
      nodes := (joined kind axis (.ofList ds) context contextId? b).foldl .add f.nodes } := by
  -- The references go into the findings one after the other.
  have hfoldl : ∀ (rs : List NodeRef) (f : Findings),
      ({ f with nodes := rs.foldl .add f.nodes } : Findings) =
        rs.foldl (fun f r => { f with nodes := f.nodes.add r }) f := by
    intro rs
    induction rs with
    | nil => exact fun f => rfl
    | cons r rs ih => exact fun f => ih { f with nodes := f.nodes.add r }
  simp only [hfoldl]
  refine .foldl _ fun r hr => .add ?_
  unfold joined taken at hr
  cases hd : (DocumentSet.ofList ds).get? b.doc with
  | none =>
    rw [hd] at hr
    cases hr
  | some document =>
    rw [hd] at hr
    rw [doc_of_mem_matching hr]
    exact DocumentSet.id_of_get?_ofList hd

end Findings

namespace Index

variable {visit : Findings → Block → Except Error Findings} {value? value?' : Option Bytes}

/-- There is a value in both places or in none; both are made of intact blocks, of every document
the same ones in the same order. -/
structure SameParts (value? value?' : Option Bytes) : Prop where
  intact : ∀ value, value? = some value → Block.IntactValue value
  intact' : ∀ value, value?' = some value → Block.IntactValue value
  isSome_eq : value?'.isSome = value?.isSome
  part_eq : ∀ doc, Block.part doc (blocksOf value?') = Block.part doc (blocksOf value?)

namespace SameParts

/-- With the same parts there are the same blocks, in some order. -/
theorem perm (h : SameParts value? value?') : (blocksOf value?).Perm (blocksOf value?') :=
  Block.perm_of_part fun doc => (h.part_eq doc).symm

/-- Either there is no value, or the values are those of intact blocks with the same parts. -/
theorem cases (h : SameParts value? value?') : value? = none ∧ value?' = none ∨
    ∃ bs bs', Block.Intact bs ∧ Block.Intact bs' ∧ value? = some (Block.valueOf bs) ∧
      value?' = some (Block.valueOf bs') ∧ ∀ doc, Block.part doc bs = Block.part doc bs' := by
  have hsome := h.isSome_eq
  cases hv : value? with
  -- Without a value there is none in the other place.
  | none =>
    rw [hv, Option.isSome_none, Option.isSome_eq_false_iff, Option.isNone_iff_eq_none] at hsome
    exact .inl ⟨rfl, hsome⟩
  | some value =>
    rw [hv] at hsome
    obtain ⟨value', hv'⟩ := Option.isSome_iff_exists.mp hsome
    obtain ⟨bs, hbs, rfl⟩ := h.intact value hv
    obtain ⟨bs', hbs', rfl⟩ := h.intact' value' hv'
    refine .inr ⟨bs, bs', hbs, hbs', rfl, hv', fun doc => ?_⟩
    have hpart := h.part_eq doc
    rw [hv, hv', blocksOf_valueOf hbs, blocksOf_valueOf hbs'] at hpart
    exact hpart.symm

end SameParts

/-- A visit that changes, for a sound block, the findings of its document only makes the same of
values with the same parts. -/
theorem sameVisit_of_sameParts {go : Block → Findings → Findings}
    (hgo : ∀ b, b.Sound → ∀ f, visit f b = .ok (go b f))
    (hlocal : ∀ b, Findings.LocalTo b.doc (go b)) (h : SameParts value? value?') :
    SameVisit visit value? value?' := by
  rcases h.cases with ⟨rfl, rfl⟩ | ⟨bs, bs', hbs, hbs', rfl, rfl, hparts⟩
  · trivial
  · intro f
    -- A walk through intact blocks is a fold, since no visit fails.
    have hfold : ∀ {cs : List Block}, Block.Intact cs →
        (Block.scan (Block.valueOf cs)).fold visit f = .ok (cs.foldl (fun f b => go b f) f) :=
        fun {cs} hcs => by
      rw [hcs.scan_eq, Framing.fold_of_no_fault rfl]
      exact Framing.foldlM_eq_ok (fun b hb => hgo b (hcs.sound b hb)) f
    rw [hfold hbs, hfold hbs']
    refine congrArg _ (Block.foldl_eq_of_part (fun f b b' hne => ?_) hparts f)
    exact (hlocal b').comm (hlocal b) (Ne.symm hne) f

/-- A query by name makes the same of values with the same parts. -/
theorem sameVisit_addBlock {kind : NameKind} {select? : Option Selector} {ds : List Document}
    (hselect : ∀ select ∈ select?, select.KeepsToDocument) (h : SameParts value? value?') :
    SameVisit (Findings.addBlock kind select? (.ofList ds)) value? value?' :=
  sameVisit_of_sameParts (fun _ hb => Findings.addBlock_eq_added hb.entries_eq)
    (Findings.localTo_added hselect) h

/-- A join makes the same of values with the same parts. -/
theorem sameVisit_joinBlock {kind : NameKind} {axis : Axis} {ds : List Document}
    {context : NodeSet} {contextId? : Option UInt32} (hcontext : context.Built)
    (h : SameParts value? value?') :
    SameVisit (Findings.joinBlock kind axis (.ofList ds) context contextId?) value? value?' :=
  sameVisit_of_sameParts (fun _ hb => Findings.joinBlock_of_sound hcontext hb)
    Findings.localTo_joined h

end Index

end XmlIndex
