import XmlIndex.Proofs.IndexRuns

/-! # The plain map behind the index

What an index holds, without blocks and bytes, is a map from family, collection, name, document
and node to an address (`NodeMap`).  The calls have a meaning for the map: a flush inserts the
nodes that are not there yet, a removal takes out the listed ones, and dropping empties the
parts of a document or collection.  A call that fails may have done a part of that
(`NodeMap.Step`).

`NodeMap.Run` are the runs of the map.  In a run whose calls keep every document in one
collection, all that is held for a document is held there (`NodeMap.Run.atHome`). -/

namespace XmlIndex

/-- The address of a node, by family, collection, name and document. -/
abbrev NodeMap := NameKind → CollectionId → QName → DocId → NodeId → Option Address

instance (kind : NameKind) (name name' : QName) : Decidable (Key.SameHeading kind name name') :=
  inferInstanceAs (Decidable (_ ∧ (_ → _)))

namespace NodeMap

/-! ## What calls do to the map -/

/-- Names with one heading share their parts. -/
def ByHeading (m : NodeMap) : Prop :=
  ∀ kind collection name name', Key.SameHeading kind name name' →
    m kind collection name = m kind collection name'

/-- The map without a node. -/
def empty : NodeMap := fun _ _ _ _ _ => none

/-- The map with the part of a document under a name changed.  Names that differ only in what
their family does not look at share that part. -/
def change (m : NodeMap) (document : Document) (name : QName)
    (f : (NodeId → Option Address) → NodeId → Option Address) : NodeMap :=
  fun kind collection name' doc =>
    if kind = name.kind ∧ collection = document.collection ∧ Key.SameHeading kind name name' ∧
        doc = document.id then
      f (m kind collection name' doc)
    else m kind collection name' doc

/-- The map with more nodes of a document.  A node that is there keeps its address, and of
those with one id the first one counts. -/
def insert (m : NodeMap) (document : Document) (name : QName) (nodes : List NodeRef) : NodeMap :=
  m.change document name fun part n =>
    (part n).or ((nodes.find? (·.node == n)).map (·.address))

/-- The map without the listed nodes of a document. -/
def remove (m : NodeMap) (document : Document) (name : QName) (removed : List NodeId) : NodeMap :=
  m.change document name fun part n => if n ∈ removed then none else part n

/-- The map without a document. -/
def withoutDocument (m : NodeMap) (document : Document) : NodeMap :=
  fun kind collection name doc n =>
    if doc = document.id then none else m kind collection name doc n

/-- The map without these families of a collection. -/
def withoutKinds (m : NodeMap) (collection : CollectionId) (kinds : List NameKind) : NodeMap :=
  fun kind collection' name doc n =>
    if collection' = collection ∧ kind ∈ kinds then none else m kind collection' name doc n

/-- The names of a batch are inserted one after the other.  A first load inserts only where
nothing is held for the document. -/
inductive Inserts (b : Batch) : List QName → NodeMap → NodeMap → Prop
  | nil {m : NodeMap} : Inserts b [] m m
  | cons {q : QName} {names : List QName} {nodes : List NodeRef} {m m' : NodeMap}
      (known : b.nodes? q = some nodes)
      (vacant : b.order = .ordered → ∀ n, m q.kind b.document.collection q b.document.id n = none)
      (rest : Inserts b names (m.insert b.document q nodes) m') : Inserts b (q :: names) m m'

/-- The nodes of the names of a batch are removed one after the other. -/
inductive Removes (b : Batch) : List QName → NodeMap → NodeMap → Prop
  | nil {m : NodeMap} : Removes b [] m m
  | cons {q : QName} {names : List QName} {nodes : List NodeRef} {m m' : NodeMap}
      (known : b.nodes? q = some nodes)
      (rest : Removes b names (m.remove b.document q (nodes.map (·.node))) m') :
      Removes b (q :: names) m m'

/-- What a call with this outcome does to the map.  A batch that fails has been worked on up to
a name, a collection up to a family; a document has lost some of its parts, and those as a
whole. -/
inductive Step : Index.Op → Except Error Unit → NodeMap → NodeMap → Prop
  | flush {b : Batch} {committed waiting : List QName} {outcome : Except Error Unit}
      {m m' : NodeMap} (names : b.names = committed ++ waiting)
      (all : outcome = .ok () ↔ waiting = []) (inserts : Inserts b committed m m') :
      Step (.flush b) outcome m m'
  | removeNodes {document : Document} {name : QName} {removed : List NodeId} {m : NodeMap} :
      Step (.removeNodes document name removed) (.ok ()) m (m.remove document name removed)
  | removeNodesFailed {document : Document} {name : QName} {removed : List NodeId} {e : Error}
      {m : NodeMap} : Step (.removeNodes document name removed) (.error e) m m
  | removeBatch {b : Batch} {removed waiting : List QName} {outcome : Except Error Unit}
      {m m' : NodeMap} (names : b.names = removed ++ waiting)
      (all : outcome = .ok () ↔ waiting = []) (removes : Removes b removed m m') :
      Step (.removeBatch b) outcome m m'
  | dropDocument {document : Document} {stop : Nat → Bool} {m : NodeMap} :
      Step (.dropDocument document stop) (.ok ()) m (m.withoutDocument document)
  | dropDocumentFailed {document : Document} {stop : Nat → Bool} {e : Error} {m m' : NodeMap}
      (shared : m'.ByHeading)
      (parts : ∀ kind collection name doc,
        m' kind collection name doc = m kind collection name doc ∨
          doc = document.id ∧ collection = document.collection ∧
            m' kind collection name doc = fun _ => none) :
      Step (.dropDocument document stop) (.error e) m m'
  | dropCollection {collection : CollectionId} {dropped waiting : List NameKind}
      {outcome : Except Error Unit} {m : NodeMap} (kinds : NameKind.all = dropped ++ waiting)
      (all : outcome = .ok () ↔ waiting = []) :
      Step (.dropCollection collection) outcome m (m.withoutKinds collection dropped)

/-- A drop that succeeds leaves the map without the document. -/
theorem Step.eq_withoutDocument {document : Document} {stop : Nat → Bool} {m m' : NodeMap}
    (h : Step (.dropDocument document stop) (.ok ()) m m') : m' = m.withoutDocument document := by
  cases h
  rfl

/-- The map after these calls, from the empty one. -/
inductive Run : List (Index.Op × Except Error Unit) → NodeMap → Prop
  | start : Run [] empty
  | call {calls : List (Index.Op × Except Error Unit)} {op : Index.Op}
      {outcome : Except Error Unit} {m m' : NodeMap} (before : Run calls m)
      (step : Step op outcome m m') : Run (calls ++ [(op, outcome)]) m'

end NodeMap

/-! ## Documents in their collections -/

/-- The document of a call is in its collection. -/
def Index.Op.AtHome (home : DocId → CollectionId) : Index.Op → Prop
  | .flush b | .removeBatch b => b.document.collection = home b.document.id
  | .removeNodes document _ _ | .dropDocument document _ =>
    document.collection = home document.id
  | .dropCollection _ => True

namespace NodeMap

/-- What is held for a document is held in its collection. -/
def AtHome (home : DocId → CollectionId) (m : NodeMap) : Prop :=
  ∀ kind collection name doc n, m kind collection name doc n ≠ none → collection = home doc

section AtHome

variable {home : DocId → CollectionId} {m m' : NodeMap} {document : Document} {name : QName}
  {b : Batch} {names : List QName}

/-- A map that holds no node which is not held already. -/
theorem AtHome.of_le (h : m.AtHome home)
    (hle : ∀ kind collection name doc n, m' kind collection name doc n ≠ none →
      m kind collection name doc n ≠ none) : m'.AtHome home :=
  fun kind collection name doc n hn =>
    h kind collection name doc n (hle kind collection name doc n hn)

/-- A change of a document's part keeps every document in its collection. -/
theorem AtHome.change (h : m.AtHome home) (hd : document.collection = home document.id)
    (f : (NodeId → Option Address) → NodeId → Option Address) :
    (m.change document name f).AtHome home := by
  intro kind collection name' doc n hn
  rw [NodeMap.change] at hn
  split at hn
  · next hplace => rw [hplace.2.1, hplace.2.2.2, hd]
  · exact h kind collection name' doc n hn

/-- Insertions keep every document in its collection. -/
theorem Inserts.atHome (h : Inserts b names m m') (hm : m.AtHome home)
    (hd : b.document.collection = home b.document.id) : m'.AtHome home := by
  induction h with
  | nil => exact hm
  | cons known vacant rest ih => exact ih (hm.change hd _)

/-- Removals keep every document in its collection. -/
theorem Removes.atHome (h : Removes b names m m') (hm : m.AtHome home)
    (hd : b.document.collection = home b.document.id) : m'.AtHome home := by
  induction h with
  | nil => exact hm
  | cons known rest ih => exact ih (hm.change hd _)

/-- Every call keeps every document in its collection. -/
theorem Step.atHome {op : Index.Op} {outcome : Except Error Unit} (h : Step op outcome m m')
    (hop : op.AtHome home) (hm : m.AtHome home) : m'.AtHome home := by
  -- Insertions and removals are changes at home; all else takes out nodes only.
  cases h with
  | flush names all inserts => exact inserts.atHome hm hop
  | removeNodes => exact hm.change hop _
  | removeNodesFailed => exact hm
  | removeBatch names all removes => exact removes.atHome hm hop
  | dropDocument =>
    refine hm.of_le fun kind collection name doc n hn => ?_
    rw [withoutDocument] at hn
    split at hn
    · exact absurd rfl hn
    · exact hn
  | dropDocumentFailed shared parts =>
    refine hm.of_le fun kind collection name doc n hn => ?_
    -- A part is either dropped or as it was.
    rcases parts kind collection name doc with hsame | ⟨_, _, hnone⟩
    · rwa [hsame] at hn
    · rw [hnone] at hn
      exact absurd rfl hn
  | dropCollection kinds all =>
    refine hm.of_le fun kind collection name doc n hn => ?_
    rw [withoutKinds] at hn
    split at hn
    · exact absurd rfl hn
    · exact hn

/-- In a run whose calls keep every document in its collection, so does the map. -/
theorem Run.atHome {calls : List (Index.Op × Except Error Unit)} (h : Run calls m)
    (hcalls : ∀ call ∈ calls, call.1.AtHome home) : m.AtHome home := by
  induction h with
  | start => exact fun _ _ _ _ _ hn => absurd rfl hn
  | call before step ih =>
    obtain ⟨hbefore, hlast⟩ := List.forall_mem_append.mp hcalls
    exact step.atHome (hlast _ (.head _)) (ih hbefore)

end AtHome

end NodeMap

end XmlIndex
