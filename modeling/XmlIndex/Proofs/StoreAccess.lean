import XmlIndex.Proofs.IndexRuns

/-! # What no call of the index touches

A call of the index changes values and codes.  Who holds the lock, whether the store is
read-only and that no failure is planned stays as it is (`Store.SameAccess`), whatever the call
comes to (`Index.Op.sameAccess_run`).  This is shown for the ways in which actions are put
together (`Action.Keeps.bind`, `Action.KeepsAccess.on`) and for the calls of the store. -/

namespace XmlIndex

namespace Store

/-- The lock is held alike, the stores are both read-only or neither is, and no failure was
planned anew. -/
structure SameAccess (s' s : Store) : Prop where
  readers : s'.readers = s.readers
  hasWriter : s'.hasWriter = s.hasWriter
  readOnly : s'.readOnly = s.readOnly
  calm : s.Calm → s'.Calm

namespace SameAccess

variable {s s' s'' : Store}

/-- Every store has its own access. -/
theorem refl (s : Store) : s.SameAccess s := ⟨rfl, rfl, rfl, id⟩

/-- What one step leaves alone and the next one too, both leave alone. -/
theorem trans (h' : s''.SameAccess s') (h : s'.SameAccess s) : s''.SameAccess s :=
  ⟨h'.readers.trans h.readers, h'.hasWriter.trans h.hasWriter, h'.readOnly.trans h.readOnly,
    fun hs => h'.calm (h.calm hs)⟩

/-- A lock is free for the same modes. -/
theorem isFree (h : s'.SameAccess s) (mode : LockMode) : s'.isFree mode = s.isFree mode := by
  cases mode <;> simp only [Store.isFree, h.readers, h.hasWriter]

/-- A planned failure that comes nearer does not touch the access. -/
theorem of_sameUpToPlan (h : s'.SameUpToPlan s) : s'.SameAccess s := by
  have hcalm := h.calm
  rw [h.eq] at hcalm ⊢
  exact ⟨rfl, rfl, rfl, hcalm⟩

end SameAccess

end Store

namespace Action

variable {σ τ α β : Type} {store : σ → Store} {R : σ → σ → Prop}

/-- Whatever the action comes to, the state that it leaves is related to the one that it found. -/
def Keeps (R : σ → σ → Prop) (x : Action σ α) : Prop := ∀ s, R (stateOf (x s)) s

namespace Keeps

/-- Two actions in sequence keep what each of them keeps. -/
theorem bind (htrans : ∀ s s' s'', R s'' s' → R s' s → R s'' s) {x : Action σ α}
    {f : α → Action σ β} (hx : Keeps R x) (hf : ∀ a, Keeps R (f a)) : Keeps R (x >>= f) := by
  intro s
  have hs := hx s
  change R (stateOf (EStateM.bind x f s)) s
  unfold EStateM.bind
  cases h : x s with
  | ok a s' =>
    rw [h] at hs
    exact htrans _ _ _ (hf a s') hs
  -- The second action is not reached.
  | error e s' =>
    rw [h] at hs
    exact hs

/-- An answer without an action leaves the state as it was. -/
theorem pure (hrefl : ∀ s, R s s) (a : α) : Keeps R (Pure.pure a : Action σ α) := hrefl

/-- An action that goes by the state it finds. -/
theorem get_bind {f : σ → Action σ β} (hf : ∀ s, R (stateOf (f s s)) s) : Keeps R (get >>= f) :=
  hf

/-- A result that is there already leaves the state as it was. -/
theorem ofExcept (hrefl : ∀ s, R s s) (x : Except Error α) : Keeps R (Action.ofExcept x) :=
  fun s => by cases x <;> exact hrefl s

end Keeps

/-- Whatever the action comes to, it leaves the access to the store as it was. -/
abbrev KeepsAccess (store : σ → Store) (x : Action σ α) : Prop :=
  Keeps (fun s' s => (store s').SameAccess (store s)) x

namespace KeepsAccess

/-- Two actions in sequence leave the access alone if both do. -/
theorem bind {x : Action σ α} {f : α → Action σ β} (hx : KeepsAccess store x)
    (hf : ∀ a, KeepsAccess store (f a)) : KeepsAccess store (x >>= f) :=
  Keeps.bind (fun _ _ _ h' h => h'.trans h) hx hf

/-- An answer without an action leaves the access alone. -/
theorem pure (a : α) : KeepsAccess store (Pure.pure a : Action σ α) :=
  Keeps.pure (fun s => .refl (store s)) a

/-- A result that is there already leaves the access alone. -/
theorem ofExcept (x : Except Error α) : KeepsAccess store (Action.ofExcept x) :=
  Keeps.ofExcept (fun s => .refl (store s)) x

/-- An action on the part of a state that has the store. -/
theorem on {store' : τ → Store} {part : σ → τ} {put : τ → σ → σ} {x : Action τ α}
    (hx : KeepsAccess store' x) (hpart : ∀ s, store s = store' (part s))
    (hput : ∀ t s, store (put t s) = store' t) : KeepsAccess store (Action.on part put x) := by
  intro s
  have hs := hx (part s)
  -- Putting a part back changes the store to that of the part.
  have hstore : ∀ t, (store' t).SameAccess (store' (part s)) →
      (store (put t s)).SameAccess (store s) := fun t ht => by rwa [hput, hpart]
  unfold Action.on
  cases h : x (part s) with
  | ok a t | error e t =>
    rw [h] at hs
    exact hstore t hs

/-- An action on a part of a state that has nothing to do with the store. -/
theorem on_other {part : σ → τ} {put : τ → σ → σ} (x : Action τ α)
    (hput : ∀ t s, store (put t s) = store s) : KeepsAccess store (Action.on part put x) := by
  intro s
  unfold Action.on
  cases x (part s) with
  | ok a t | error e t => exact (hput t s).symm ▸ Store.SameAccess.refl (store s)

end KeepsAccess

end Action

/-! ## Calls of the store -/

namespace Store

open XmlIndex.Action

section Reading

variable {R : Store → Store → Prop} (hsame : ∀ s s', s'.SameUpToPlan s → R s' s)

include hsame

/-- Reading calls change no more than the plan of failures. -/
theorem keeps_get (key : Bytes) : Keeps R (get key) := fun s => by
  cases h : get key s with
  | ok slot? s' => exact hsame s s' (get_eq_ok h).2
  | error e s' => exact hsame s s' (get_eq_error h).1

/-- A search for keys changes no more than the plan of failures. -/
theorem keeps_findKeys (range : KeyRange) : Keeps R (findKeys range) := fun s => by
  cases h : findKeys range s with
  | ok keys s' => exact hsame s s' (findKeys_eq_ok h).2
  | error e s' => exact hsame s s' (findKeys_eq_error h).1

/-- So does the beginning of a change. -/
theorem keeps_enterChange (call : StoreCall) : Keeps R (enterChange call .write) := fun s => by
  cases h : enterChange call .write s with
  | ok a s' => exact hsame s s' (enterChange_eq_ok h).1
  | error e s' => exact hsame s s' (enterChange_eq_error h).1

end Reading

/-- Without the lock nothing is done. -/
theorem keeps_locked {α : Type} {R : Store → Store → Prop} (hrefl : ∀ s, R s s) (mode : LockMode)
    {body : Action Store α} (h : Keeps R body) : Keeps R (locked mode body) := fun s => by
  cases hs : s.isFree mode with
  | true =>
    rw [locked_of_isFree hs]
    exact h s
  | false =>
    rw [locked_of_not_isFree hs]
    exact hrefl s

/-- A look-up leaves the access alone. -/
theorem keepsAccess_get (key : Bytes) : KeepsAccess id (get key) :=
  keeps_get (fun _ _ h => .of_sameUpToPlan h) key

/-- The beginning of a change leaves the access alone. -/
theorem keepsAccess_enterChange (call : StoreCall) : KeepsAccess id (enterChange call .write) :=
  keeps_enterChange (fun _ _ h => .of_sameUpToPlan h) call

/-- A put leaves the access alone. -/
theorem keepsAccess_put (key value : Bytes) : KeepsAccess id (put .write key value) :=
  (keepsAccess_enterChange .put).bind fun _ _ => ⟨rfl, rfl, rfl, id⟩

/-- A removal of keys leaves the access alone. -/
theorem keepsAccess_removeAll (range : KeyRange) : KeepsAccess id (removeAll .write range) :=
  (keepsAccess_enterChange .removeAll).bind fun _ _ => ⟨rfl, rfl, rfl, id⟩

/-- An append leaves the access alone. -/
theorem keepsAccess_append (key fragment : Bytes) : KeepsAccess id (append .write key fragment) :=
  (keepsAccess_enterChange .append).bind fun _ => Keeps.get_bind fun s => by
    cases s.entries.get? key <;> exact ⟨rfl, rfl, rfl, id⟩

/-- An update leaves the access alone, also where it is refused. -/
theorem keepsAccess_update (address : Nat) (key value : Bytes) :
    KeepsAccess id (update .write address key value) :=
  (keepsAccess_enterChange .update).bind fun _ => Keeps.get_bind fun s => by
    cases s.entries.get? key with
    | none => exact .refl s
    | some slot =>
      dsimp only
      split
      · exact ⟨rfl, rfl, rfl, id⟩
      · exact .refl s

/-- Under a lock the access is kept as without it. -/
theorem keepsAccess_locked {α : Type} (mode : LockMode) {body : Action Store α}
    (h : KeepsAccess id body) : KeepsAccess id (locked mode body) :=
  keeps_locked SameAccess.refl mode h

end Store

/-! ## Calls of the index -/

namespace Index

open XmlIndex.Action Store

/-- What the store keeps, the index keeps. -/
theorem keepsAccess_onStore {α : Type} {x : Action Store α} (h : KeepsAccess id x) :
    KeepsAccess (·.store) (onStore x) :=
  KeepsAccess.on h (fun _ => rfl) fun _ _ => rfl

/-- Forming a key is a matter of codes, not of the store. -/
theorem keepsAccess_keyOf (kind : NameKind) (collection : CollectionId) (name : QName) :
    KeepsAccess (·.store) (keyOf kind collection name) :=
  .on_other _ fun _ _ => rfl

section Flushing

/-- Appending a block leaves the access alone. -/
theorem keepsAccess_appendBlock (key : Key) (doc : DocId) (order : BlockOrder) (block : Bytes) :
    KeepsAccess id (appendBlock key doc order block) := by
  apply keepsAccess_locked .write
  have happend : KeepsAccess id (do
      let _ ← Store.append .write key.toBytes block
      return () : Action Store Unit) := (keepsAccess_append _ _).bind fun _ => .pure ()
  -- An ordered block is looked for before it is written, which only reads.
  cases order with
  | unordered => exact happend
  | ordered =>
    refine (keepsAccess_get _).bind fun slot? => ?_
    cases slot? with
    | none => exact happend
    | some slot => exact (KeepsAccess.ofExcept _).bind fun _ => happend

/-- Writing the references of a name leaves the access alone. -/
theorem keepsAccess_flushNodes (name : QName) (key : Key) (nodes : List NodeRef) (done : Nat) :
    KeepsAccess (·.index.store) (flushNodes name key nodes done) := fun f => by
  unfold flushNodes
  dsimp only
  generalize hr : onStore _ f.index = r
  have hindex : (stateOf r).store.SameAccess f.index.store :=
    hr ▸ keepsAccess_onStore (keepsAccess_appendBlock _ _ _ _) f.index
  cases r with
  | ok a index | error e index => exact hindex

/-- Flushing one name leaves the access alone. -/
theorem keepsAccess_flushName (name : QName) (done : Nat) :
    KeepsAccess (·.index.store) (flushName name done) := by
  refine .get_bind fun f => KeepsAccess.bind
    (KeepsAccess.on (keepsAccess_keyOf _ _ _) (fun _ => rfl) fun _ _ => rfl)
    (fun key => .get_bind fun f => ?_) f
  cases f.batch.nodes? name with
  | none => exact .refl _
  | some nodes => exact keepsAccess_flushNodes name key nodes done f

/-- Flushing names one by one leaves the access alone. -/
theorem keepsAccess_flushNames (names : List QName) (done : Nat) :
    KeepsAccess (·.index.store) (flushNames names done) := by
  induction names generalizing done with
  | nil => exact .pure ()
  | cons name names ih => exact (keepsAccess_flushName name done).bind fun _ => ih (done + 1)

/-- A flush leaves the access alone. -/
theorem keepsAccess_flush : KeepsAccess (·.index.store) flush := by
  refine .get_bind fun f => ?_
  dsimp only
  split
  · exact .refl _
  · -- Starting and finishing change the progress only.
    exact (keepsAccess_flushNames f.batch.names 1).bind (fun _ _ => .refl _)
      { f with progress := Progress.start f.batch.names.length f.index.progressStep }

end Flushing

section Removing

/-- Rewriting a value without some nodes leaves the access alone. -/
theorem keepsAccess_rewriteValue (doc : DocId) (removed : List NodeId) (key : Bytes) :
    KeepsAccess id (rewriteValue doc removed key) := by
  refine (keepsAccess_get key).bind fun slot? => ?_
  cases slot? with
  | none => exact (keepsAccess_put key []).bind fun _ => .pure ()
  | some slot =>
    refine (KeepsAccess.ofExcept _).bind fun value => ?_
    exact (keepsAccess_update slot.address key value).bind fun _ => .pure ()

/-- Removing nodes under a name leaves the access alone. -/
theorem keepsAccess_removeNodes (document : Document) (name : QName) (removed : List NodeId) :
    KeepsAccess (·.store) (removeNodes document name removed) :=
  (keepsAccess_keyOf _ _ _).bind fun key =>
    keepsAccess_onStore (keepsAccess_locked .write
      (keepsAccess_rewriteValue document.id removed key.toBytes))

/-- Removing under several names leaves the access alone. -/
theorem keepsAccess_removeNames (names : List QName) :
    KeepsAccess (·.1.store) (removeNames names) := by
  induction names with
  | nil => exact .pure ()
  | cons name names ih =>
    rintro ⟨index, batch⟩
    rw [removeNames]
    dsimp only
    split
    · exact ih (index, batch)
    · next nodes _ =>
      have hremove := keepsAccess_removeNodes batch.document name (nodes.map (·.node)) index
      -- Each name is one removal, and the batch only shrinks between them.
      generalize removeNodes _ _ _ index = r at hremove
      cases r with
      | ok a index' => exact (ih (index', batch.drop name)).trans hremove
      | error e index' => exact hremove

/-- Removing a whole batch leaves the access alone. -/
theorem keepsAccess_removeBatch : KeepsAccess (·.1.store) removeBatch :=
  .get_bind fun state => (keepsAccess_removeNames _).bind (fun _ _ => .refl _) state

end Removing

section Dropping

/-- Dropping families of keys leaves the access alone. -/
theorem keepsAccess_dropKinds (collection : CollectionId) (kinds : List NameKind) :
    KeepsAccess id (dropKinds collection kinds) := by
  induction kinds with
  | nil => exact .pure 0
  | cons kind kinds ih =>
    exact (keepsAccess_removeAll _).bind fun here => ih.bind fun more => .pure _

section Documents

variable {R : Store → Store → Prop} (htrans : ∀ s s' s'', R s'' s' → R s' s → R s'' s)
  (hsame : ∀ s s', s'.SameUpToPlan s → R s' s)
  (hupdate : ∀ address key value, Keeps R (update .write address key value))

include htrans hsame hupdate

/-- Dropping a document only reads and updates values. -/
theorem keeps_dropFromKey (document : Document) (key : Bytes) (d : Dropped) :
    Keeps R (dropFromKey document key d) := by
  have hrefl : ∀ s, R s s := fun s => hsame s s (.refl s)
  refine Keeps.bind htrans (keeps_get hsame key) fun slot? => ?_
  cases slot? with
  | none => exact Keeps.pure hrefl d
  | some slot =>
    refine Keeps.bind htrans (Keeps.ofExcept hrefl _) fun ⟨others, found⟩ => ?_
    cases found with
    | false => exact Keeps.pure hrefl d
    | true => exact Keeps.bind htrans (hupdate slot.address key others) fun _ => Keeps.pure hrefl _

/-- Walking through keys only reads and updates values. -/
theorem keeps_dropFromKeys (document : Document) (stop : Nat → Bool) (keys : List Bytes)
    (d : Dropped) : Keeps R (dropFromKeys document stop keys d) := by
  induction keys generalizing d with
  | nil => exact Keeps.pure (fun s => hsame s s (.refl s)) d
  | cons key keys ih =>
    rw [dropFromKeys]
    split
    · exact fun s => hsame s s (.refl s)
    · exact Keeps.bind htrans (keeps_dropFromKey htrans hsame hupdate document key _) ih

/-- Walking through families of keys only reads and updates values. -/
theorem keeps_dropFromKinds (document : Document) (stop : Nat → Bool) (kinds : List NameKind)
    (d : Dropped) : Keeps R (dropFromKinds document stop kinds d) := by
  induction kinds generalizing d with
  | nil => exact Keeps.pure (fun s => hsame s s (.refl s)) d
  | cons kind kinds ih =>
    refine Keeps.bind htrans (keeps_findKeys hsame _) fun keys => ?_
    exact Keeps.bind htrans (keeps_dropFromKeys htrans hsame hupdate document stop keys d) ih

end Documents

end Dropping

/-- No call touches the access to the store. -/
theorem Op.sameAccess_run (op : Op) (i : Index) :
    (stateOf (op.run i)).store.SameAccess i.store := by
  -- The outline of a result is taken from its state, whatever the result.
  have houtline : ∀ {σ α : Type} (index : σ → Index) (r : EStateM.Result Error σ α),
      stateOf (outline index r) = index (stateOf r) := fun index r => by cases r <;> rfl
  cases op with
  | flush batch =>
    rw [run, houtline]
    exact keepsAccess_flush (flushing i batch)
  | removeNodes document name removed => exact keepsAccess_removeNodes document name removed i
  | removeBatch batch =>
    rw [run, houtline]
    exact keepsAccess_removeBatch (i, batch)
  | dropDocument document stop =>
    rw [run, houtline]
    -- A walk keeps the access, as each of its calls does.
    have hstore := keepsAccess_onStore (keepsAccess_locked .write
      (keeps_dropFromKinds (R := fun s' s => s'.SameAccess s) (fun _ _ _ h' h => h'.trans h)
        (fun _ _ h => .of_sameUpToPlan h) keepsAccess_update document stop NameKind.all {}))
    exact hstore.bind (fun _ => .pure _) i
  | dropCollection collection =>
    rw [run, houtline]
    exact keepsAccess_onStore (keepsAccess_locked .write (keepsAccess_dropKinds collection _)) i

end Index

end XmlIndex
