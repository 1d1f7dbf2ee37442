import Mathlib
import XmlIndex.Proofs.FlushResume
import XmlIndex.Proofs.OpenCalls

/-! # Removing a batch again after a failure

The removal of a batch that fails at a name has removed the nodes of the names in front of it,
and the batch still has that name and those behind it, with the nodes in the order in which they
were registered (`Batch.Retains`).  So it can be repeated, and what the attempts do comes to what
one does that nothing stands in the way of (`Index.removeBatch_resumes`).

As in a flush, others may act before each name (`Disturbance`).  What a removal does depends on
the contents of the store only (`Index.exists_removeNodes_of_sameContents`).  So the names that
several attempts have removed are accounted for by one run of `Index.removeNodes`, name by name,
on a store with the same contents that nobody disturbs; `Index.Removals` is that run. -/

namespace XmlIndex

namespace Index

/-- The indexes have the same contents and the same codes.  Others may stand in the way of the
one and not of the other. -/
structure SameContents (i' i : Index) : Prop where
  store : i'.store.SameContents i.store
  symbols : i'.symbols = i.symbols

/-- Indexes with the same contents, the other way round. -/
theorem SameContents.symm {i i' : Index} (h : i'.SameContents i) : i.SameContents i' :=
  ⟨h.store.symm, h.symbols.symm⟩

/-- Indexes with the same contents as a third. -/
theorem SameContents.trans {i i' i'' : Index} (h' : i''.SameContents i') (h : i'.SameContents i) :
    i''.SameContents i :=
  ⟨h'.store.trans h.store, h'.symbols.trans h.symbols⟩

/-! ## Removals from the same contents -/

section Elsewhere

variable {document : Document} {q : QName} {removed : List NodeId} {i i' i'' j : Index}

/-- A removal that went through goes through wherever the contents are the same and nothing
stands in the way, and does the same there. -/
theorem exists_removeNodes_of_sameContents (h : removeNodes document q removed i = .ok () i')
    (ho : j.store.Open) (hs : j.store.SameContents i.store)
    (hof : Key.ofName q.kind document.collection q j.symbols =
      Key.ofName q.kind document.collection q i.symbols) :
    ∃ j', removeNodes document q removed j = .ok () j' ∧ j'.store.Open ∧ j'.SameContents i' := by
  -- What goes through has put one value under one key.
  obtain ⟨k, value, hkey, hvalue, hstore⟩ := removeNodes_replaces h
  rw [← hof] at hkey
  rw [← hs.value?] at hvalue
  obtain ⟨j', hremove, ho'⟩ := exists_removeNodes_of_withoutNodes removed ho hkey hvalue
  -- Both have put the same value under the same key.
  obtain ⟨k', value', hkey', hvalue', hstore'⟩ := removeNodes_replaces hremove
  obtain ⟨rfl, hsymbols⟩ := EStateM.Result.ok.inj (hkey.symm.trans hkey')
  obtain rfl := Except.ok.inj (hvalue.symm.trans hvalue')
  have hreplaced := (hs.replaced k.toBytes value).trans hstore.sameContents.symm
  exact ⟨j', hremove, ho', hstore'.sameContents.trans hreplaced, hsymbols.symm⟩

namespace Removals

variable {b b' : Batch} {names waiting : List QName}

/-- Removals of some names and then of others. -/
theorem append (h : Removals b names i i') (h' : Removals b waiting i' i'') :
    Removals b (names ++ waiting) i i'' := by
  induction h with
  | nil => exact h'
  | cons known removed rest ih => exact .cons known removed (ih h')

/-- Removals go through wherever the contents are the same and nothing stands in the way. -/
theorem of_sameContents (h : Removals b names i i') (ho : j.store.Open) (hs : j.SameContents i) :
    ∃ j', Removals b names j j' ∧ j'.store.Open ∧ j'.SameContents i' := by
  -- After each removal the contents are the same again, and the store is still open.
  induction h generalizing j with
  | nil => exact ⟨j, .nil, ho, hs⟩
  | cons known removed rest ih =>
    obtain ⟨j₁, hremove, ho₁, hs₁⟩ :=
      exists_removeNodes_of_sameContents removed ho hs.store (by rw [hs.symbols])
    obtain ⟨j', hrest, ho', hs'⟩ := ih ho₁ hs₁
    exact ⟨j', .cons known hremove hrest, ho', hs'⟩

/-- A name that was tried before is removed as if it had not been tried. -/
theorem of_tried (h : Removals b (q :: names) i i') (ho : j.store.Open)
    (hs : j.store.SameContents i.store)
    (ht : i.symbols = Action.stateOf (Key.ofName q.kind b.document.collection q j.symbols)) :
    ∃ j', Removals b (q :: names) j j' ∧ j'.store.Open ∧ j'.SameContents i' := by
  cases h with
  | cons known removed rest =>
    -- The first attempt may have given the name codes; forming its key gives them again.
    obtain ⟨j₁, hremove, ho₁, hs₁⟩ :=
      exists_removeNodes_of_sameContents removed ho hs (by rw [ht, Key.ofName_stateOf])
    obtain ⟨j', hrest, ho', hs'⟩ := rest.of_sameContents ho₁ hs₁
    exact ⟨j', .cons known hremove hrest, ho', hs'⟩

/-- What is left of a batch is removed as it would have been before. -/
theorem of_retains (hr : b.Retains b' waiting) (hsub : ∀ q ∈ names, q ∈ waiting)
    (h : Removals b' names i i') : Removals b names i i' := by
  induction h with
  | nil => exact .nil
  | cons known removed rest ih =>
    obtain ⟨hq, hnames⟩ := List.forall_mem_cons.mp hsub
    rw [hr.nodes?_eq _ hq] at known
    rw [hr.document] at removed
    exact .cons known removed (ih hnames)

end Removals

end Elsewhere

/-! ## Removing with others at the store -/

/-- The index after what others do to its store before the `done`-th name of a removal. -/
def disturbedBy (d : Disturbance) (done : Nat) (i : Index) : Index :=
  { i with store := d.act done i.store }

/-- Removes the nodes of these names, the first of them as the `done`-th, with others at the
store. -/
def removeNamesAmid (d : Disturbance) : (names : List QName) → (done : Nat) →
    Action (Index × Batch) Unit
  | [], _ => pure ()
  | name :: names, done => do
    modify fun (index, batch) => (disturbedBy d done index, batch)
    removeNames [name]
    removeNamesAmid d names (done + 1)

/-- Removes all nodes of a batch, with others at the store. -/
def removeBatchAmid (d : Disturbance) : Action (Index × Batch) Unit := do
  let (_, batch) ← get
  removeNamesAmid d batch.names 1
  modify fun (index, batch) => (index, batch.discard)

/-- Without disturbance these are the plain removals. -/
theorem removeNamesAmid_none (names : List QName) (done : Nat) :
    removeNamesAmid .none names done = removeNames names := by
  induction names generalizing done with
  | nil => rfl
  | cons name names ih =>
    rw [removeNamesAmid, removeNames_cons name names, ih]
    rfl

/-- A removal is one that nobody disturbs. -/
theorem removeBatchAmid_none : removeBatchAmid .none = removeBatch := by
  rw [removeBatchAmid, removeBatch]
  simp only [removeNamesAmid_none]

/-- The first name is removed after what others do, and then it leaves the batch. -/
theorem removeNamesAmid_cons {b : Batch} {q : QName} {nodes : List NodeRef}
    (h : b.nodes? q = some nodes) (d : Disturbance) (names : List QName) (done : Nat) (i : Index) :
    removeNamesAmid d (q :: names) done (i, b) =
      match removeNodes b.document q (nodes.map (·.node)) (disturbedBy d done i) with
      | .ok () i' => removeNamesAmid d names (done + 1) (i', b.drop q)
      | .error e i' => .error e (i', b) := by
  -- For one name the undisturbed removal is that of the name, in the index that the others have
  -- left.
  have hfirst := removeNames_singleton h (disturbedBy d done i)
  rw [removeNamesAmid, Action.modify_bind]
  cases hremove : removeNodes b.document q (nodes.map (·.node)) (disturbedBy d done i) with
  | ok a i' =>
    rw [hremove] at hfirst
    exact Action.bind_of_ok hfirst
  | error e i' =>
    rw [hremove] at hfirst
    exact Action.bind_of_error hfirst

/-! ## What a removal has done -/

section Runs

variable {d : Disturbance} {b b₁ b' : Batch} {q : QName} {names : List QName} {done : Nat}
  {i i' j : Index} {e : Error}

/-- Others do not change the contents. -/
theorem SameContents.disturbedBy (hs : j.SameContents i) (d : Disturbance) (done : Nat) :
    j.SameContents (disturbedBy d done i) :=
  ⟨hs.store.trans (d.sameContents done i.store).symm, hs.symbols⟩

/-- A removal that succeeds has removed all names. -/
theorem removeNamesAmid_eq_ok (hr : b.Retains b₁ names) (ho : j.store.Open)
    (hs : j.SameContents i) (h : removeNamesAmid d names done (i, b₁) = .ok () (i', b')) :
    ∃ j', Removals b names j j' ∧ j'.store.Open ∧ j'.SameContents i' ∧ b.Retains b' [] := by
  -- Induction on the names: what is left of the batch after one are the others.
  induction names generalizing done i j b₁ with
  | nil =>
    obtain ⟨-, hstate⟩ := EStateM.Result.ok.inj h
    obtain ⟨rfl, rfl⟩ := Prod.mk.inj hstate
    exact ⟨j, .nil, ho, hs, hr⟩
  | cons q names ih =>
    obtain ⟨nodes, hknown, hnodes⟩ := hr.exists_nodes
    rw [removeNamesAmid_cons hnodes, hr.document] at h
    split at h
    · next i₁ hremove =>
      have hs₁ := hs.disturbedBy d done
      obtain ⟨j₁, hremoved, ho₁, hsame⟩ :=
        exists_removeNodes_of_sameContents hremove ho hs₁.store (by rw [hs₁.symbols])
      obtain ⟨j', hremovals, ho', hsame', hr'⟩ := ih hr.drop_front ho₁ hsame h
      exact ⟨j', .cons hknown hremoved hremovals, ho', hsame', hr'⟩
    · cases h

/-- A removal of these names from an index like `j` came to an end at `q`: the names in front
of it are removed, as from `j` itself, and its own removal failed; it and those behind it are
still in the batch. -/
structure HeldUp (b : Batch) (names : List QName) (j : Index) (e : Error) (i' : Index)
    (b' : Batch) (removed : List QName) (q : QName) (waiting : List QName) (j' : Index) :
    Prop where
  names_eq : names = removed ++ q :: waiting
  removals : Removals b removed j j'
  isOpen : j'.store.Open
  failed : ∃ nodes i₁, b.nodes? q = some nodes ∧ i₁.SameContents j' ∧
    removeNodes b.document q (nodes.map (·.node)) i₁ = .error e i'
  retains : b.Retains b' (q :: waiting)

namespace HeldUp

variable {removed waiting : List QName} {j' : Index}

/-- The removal that failed changed no value, and may have given its name codes. -/
theorem unchanged (h : HeldUp b names j e i' b' removed q waiting j') :
    i'.store.SameContents j'.store ∧
      i'.symbols =
        Action.stateOf (Key.ofName q.kind b.document.collection q j'.symbols) := by
  obtain ⟨nodes, i₁, _, hs, herror⟩ := h.failed
  obtain ⟨hstore, hsymbols⟩ := removeNodes_eq_error herror
  exact ⟨hstore.sameContents.trans hs.store, hs.symbols ▸ hsymbols⟩

end HeldUp

/-- A removal that fails has removed the names in front of one. -/
theorem removeNamesAmid_eq_error (hr : b.Retains b₁ names) (ho : j.store.Open)
    (hs : j.SameContents i) (h : removeNamesAmid d names done (i, b₁) = .error e (i', b')) :
    ∃ removed q waiting j', HeldUp b names j e i' b' removed q waiting j' := by
  -- Induction on the names, as for a removal that succeeds.
  induction names generalizing done i j b₁ with
  | nil => cases h
  | cons q names ih =>
    obtain ⟨nodes, hknown, hnodes⟩ := hr.exists_nodes
    rw [removeNamesAmid_cons hnodes, hr.document] at h
    have hs₁ := hs.disturbedBy d done
    -- Either this name is removed and a later one fails, or it fails itself.
    split at h
    · next i₁ hremove =>
      obtain ⟨j₁, hremoved, ho₁, hsame⟩ :=
        exists_removeNodes_of_sameContents hremove ho hs₁.store (by rw [hs₁.symbols])
      obtain ⟨removed, q', waiting, j', hheld⟩ := ih hr.drop_front ho₁ hsame h
      refine ⟨q :: removed, q', waiting, j', ?_, .cons hknown hremoved hheld.removals,
        hheld.isOpen, hheld.failed, hheld.retains⟩
      rw [hheld.names_eq, List.cons_append]
    · next hfails =>
      obtain ⟨rfl, hstate⟩ := EStateM.Result.error.inj h
      obtain ⟨rfl, rfl⟩ := Prod.mk.inj hstate
      exact ⟨[], q, names, j, rfl, .nil, ho, ⟨nodes, _, hknown, hs₁.symm, hfails⟩, hr⟩

/-- A removal of a batch that succeeds has removed all names. -/
theorem removeBatchAmid_eq_ok (ho : j.store.Open) (hs : j.SameContents i)
    (h : removeBatchAmid d (i, b) = .ok () (i', b')) :
    ∃ j', Removals b b.names j j' ∧ j'.SameContents i' ∧ b' = b.discard := by
  obtain ⟨_, _, hget, hrest⟩ := Action.bind_eq_ok_iff.mp h
  obtain ⟨rfl, rfl⟩ := EStateM.Result.ok.inj hget
  obtain ⟨_, ⟨i₁, b₁⟩, hnames, hdone⟩ := Action.bind_eq_ok_iff.mp hrest
  obtain ⟨-, hstate⟩ := EStateM.Result.ok.inj hdone
  obtain ⟨rfl, rfl⟩ := Prod.mk.inj hstate
  obtain ⟨j', hremovals, _, hsame, hr⟩ := removeNamesAmid_eq_ok b.retains_self ho hs hnames
  exact ⟨j', hremovals, hsame, hr.discard_eq⟩

/-- A removal of a batch that fails was held up at a name. -/
theorem removeBatchAmid_eq_error (ho : j.store.Open) (hs : j.SameContents i)
    (h : removeBatchAmid d (i, b) = .error e (i', b')) :
    ∃ removed q waiting j', HeldUp b b.names j e i' b' removed q waiting j' := by
  rcases Action.bind_eq_error_iff.mp h with hget | ⟨_, _, hget, hrest⟩
  · cases hget
  obtain ⟨rfl, rfl⟩ := EStateM.Result.ok.inj hget
  rcases Action.bind_eq_error_iff.mp hrest with hnames | ⟨_, _, _, hdone⟩
  · exact removeNamesAmid_eq_error b.retains_self ho hs hnames
  · cases hdone

/-- Names whose removals go through one after the other are removed. -/
theorem removeNames_of_removals (hr : b.Retains b₁ names) (h : Removals b names i i') :
    ∃ b', removeNames names (i, b₁) = .ok () (i', b') ∧ b.Retains b' [] := by
  induction h generalizing b₁ with
  | nil => exact ⟨b₁, rfl, hr⟩
  | @cons q names nodes i i₁ i' known removed rest ih =>
    -- The names to come are untouched by the removals before.
    have hnodes : b₁.nodes? q = some nodes := (hr.nodes?_eq q (.head names)).trans known
    obtain ⟨b', hrest, hr'⟩ := ih hr.drop_front
    refine ⟨b', ?_, hr'⟩
    rw [removeNames_cons]
    refine Action.bind_eq_ok_iff.mpr ⟨(), (i₁, b₁.drop q), ?_, hrest⟩
    rw [removeNames_singleton hnodes, hr.document, removed]

/-- A batch whose names are removed one after the other is removed. -/
theorem removeBatch_of_removals (h : Removals b b.names i i') :
    removeBatch (i, b) = .ok () (i', b.discard) := by
  obtain ⟨b', hnames, hr⟩ := removeNames_of_removals b.retains_self h
  refine Action.bind_eq_ok_iff.mpr ⟨(i, b), (i, b), rfl, ?_⟩
  refine Action.bind_eq_ok_iff.mpr ⟨(), (i', b'), hnames, ?_⟩
  rw [← hr.discard_eq]
  rfl

end Runs

/-! ## Repeated removals -/

/-- A batch is removed again and again until that succeeds, with whatever disturbances; these
are the index and the batch in the end. -/
inductive RemovedUntilDone : Index → Batch → Index → Batch → Prop
  | done {i i' : Index} {b b' : Batch} {d : Disturbance}
      (h : removeBatchAmid d (i, b) = .ok () (i', b')) : RemovedUntilDone i b i' b'
  | again {i i₁ i' : Index} {b b₁ b' : Batch} {d : Disturbance} {e : Error}
      (h : removeBatchAmid d (i, b) = .error e (i₁, b₁))
      (rest : RemovedUntilDone i₁ b₁ i' b') : RemovedUntilDone i b i' b'

/-- In the end all names are removed, each once. -/
theorem RemovedUntilDone.removals {i i' j : Index} {b b' : Batch}
    (h : RemovedUntilDone i b i' b') (ho : j.store.Open) (hs : j.SameContents i) :
    ∃ j', Removals b b.names j j' ∧ j'.SameContents i' ∧ b' = b.discard := by
  -- Induction on the attempts: the names removed first stand in front of the rest.
  induction h generalizing j with
  | done h => exact removeBatchAmid_eq_ok ho hs h
  | @again i i₁ i' b b₁ b' d e h rest ih =>
    obtain ⟨removed, q, waiting, j₁, hheld⟩ := removeBatchAmid_eq_error ho hs h
    obtain ⟨hstore, hsymbols⟩ := hheld.unchanged
    -- The next attempt begins with the codes that the failing name may have got.
    obtain ⟨j₂, hremovals, hsame, hdiscard⟩ :=
      ih (j := { j₁ with symbols := i₁.symbols }) hheld.isOpen ⟨hstore.symm, rfl⟩
    rw [hheld.retains.names_eq] at hremovals
    have hrest := hremovals.of_retains hheld.retains fun _ h => h
    obtain ⟨j', hremovals', _, hsame'⟩ := hrest.of_tried hheld.isOpen (.refl _) hsymbols
    refine ⟨j', ?_, hsame'.trans hsame, hdiscard.trans hheld.retains.discard_eq⟩
    rw [hheld.names_eq]
    exact hheld.removals.append hremovals'

/-- The index with nothing that stands in the way of a change. -/
def cleared (i : Index) : Index := { i with store := i.store.cleared }

/-- Taking away what stands in the way leaves the contents. -/
theorem sameContents_cleared (i : Index) : i.cleared.SameContents i :=
  ⟨i.store.sameContents_cleared, rfl⟩

/-- The removal of a batch can be repeated without loss and without repetition.

One that succeeds has removed the nodes of all names, one name after the other as `removeNodes`
does, and emptied the batch.  One that fails has done so for the names in front of the failing
one, whose own removal failed and changed nothing; the failing name and those behind it are
still in the batch, with all their nodes in the order in which they were registered.  When it is
repeated until it succeeds, the index has in the end the contents that one undisturbed removal
gives it, and the batch is as empty.  A removal that nobody disturbs is the plain one. -/
theorem removeBatch_resumes (i : Index) (b : Batch) :
    (∀ d i' b', removeBatchAmid d (i, b) = .ok () (i', b') →
      (∃ j', Removals b b.names i.cleared j' ∧ i'.SameContents j') ∧ b' = b.discard) ∧
    (∀ d e i' b', removeBatchAmid d (i, b) = .error e (i', b') →
      ∃ removed q waiting, b.names = removed ++ q :: waiting ∧
        (∃ j', Removals b removed i.cleared j' ∧ i'.store.SameContents j'.store ∧
          ∃ nodes i₁, b.nodes? q = some nodes ∧ i₁.SameContents j' ∧
            removeNodes b.document q (nodes.map (·.node)) i₁ = .error e i') ∧
        b'.document = b.document ∧ b'.order = b.order ∧ b'.names = q :: waiting ∧
        ∀ q' ∈ q :: waiting, b'.nodes? q' = b.nodes? q') ∧
    (∀ i' b', RemovedUntilDone i b i' b' →
      ∃ i'', removeBatch (i.cleared, b) = .ok () (i'', b') ∧ i'.SameContents i'' ∧
        b' = b.discard) ∧
    removeBatchAmid .none = removeBatch := by
  -- The undisturbed removal takes place in a store that refuses nothing.
  have ho : i.cleared.store.Open := i.store.open_cleared
  have hs := i.sameContents_cleared
  refine ⟨fun d i' b' h => ?_, fun d e i' b' h => ?_, fun i' b' h => ?_, removeBatchAmid_none⟩
  · obtain ⟨j', hremovals, hsame, hdiscard⟩ := removeBatchAmid_eq_ok ho hs h
    exact ⟨⟨j', hremovals, hsame.symm⟩, hdiscard⟩
  · obtain ⟨removed, q, waiting, j', hheld⟩ := removeBatchAmid_eq_error ho hs h
    refine ⟨removed, q, waiting, hheld.names_eq,
      ⟨j', hheld.removals, hheld.unchanged.1, hheld.failed⟩, hheld.retains.document,
      hheld.retains.order, hheld.retains.names_eq, hheld.retains.nodes?_eq⟩
  · obtain ⟨j', hremovals, hsame, rfl⟩ := h.removals ho hs
    exact ⟨j', removeBatch_of_removals hremovals, hsame.symm, rfl⟩

/-- An index with a block of the document, if one without entries, under the one name and a block
of another document under the other.  The store refuses the second value that is to be
replaced. -/
def refusingSecond : Index where
  store := ((({ name := "nodes", timeout := ⟨100⟩ } : Store).place (Key.verbatim 7 "id").toBytes
    [1, 0, 0, 1, 0, 0, 0, 0]).place (Key.verbatim 7 "no").toBytes
    [2, 1, 0, 0, 0, 0, 0]).plan .update 2
  symbols := .empty
  progressStep := 10

/-- What the first attempt leaves. -/
def afterRefusal : Index × Batch := Action.stateOf (removeBatch (refusingSecond, twoNames))

/-- The first attempt is refused at the second name. -/
theorem removeBatch_refusingSecond :
    removeBatch (refusingSecond, twoNames) = .error (.injected "update") afterRefusal :=
  Action.eq_error_of_outcomeOf (by cbv)

/-- The second attempt goes through. -/
theorem removeBatch_afterRefusal :
    removeBatch afterRefusal = .ok () (Action.stateOf (removeBatch afterRefusal)) :=
  Action.eq_ok_of_outcomeOf (by cbv)

/-- A removal of two names that fails at the second and is repeated comes to one removal. -/
theorem removeBatch_twoNames_resumes : ∃ i' b',
    RemovedUntilDone refusingSecond twoNames i' b' ∧ afterRefusal.2.names.length = 1 ∧
    ∃ i'', removeBatch (refusingSecond.cleared, twoNames) = .ok () (i'', b') ∧
      i'.SameContents i'' ∧ b' = twoNames.discard := by
  have herror := removeBatch_refusingSecond
  have hok := removeBatch_afterRefusal
  rw [← removeBatchAmid_none] at herror hok
  have hdone : RemovedUntilDone refusingSecond twoNames _ _ := .again herror (.done hok)
  obtain ⟨_, _, huntil, _⟩ := removeBatch_resumes refusingSecond twoNames
  exact ⟨_, _, hdone, by cbv, huntil _ _ hdone⟩

end Index

end XmlIndex
