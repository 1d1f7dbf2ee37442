import XmlIndex.Proofs.BatchRemains
import XmlIndex.Proofs.FlushSteps

/-! # Flushing again after a failure

What a flush writes is described without the flush: `Batch.Commits b names t s t' s'` says
that the blocks of these names, one after the other, lead from the symbols `t` and the store
`s` to `t'` and `s'`.  A flush that succeeds has committed all names of its batch; one that
fails has committed the names in front of the one it failed at, and the batch has the others
(`Index.flushNamesAmid_eq_ok`, `Index.flushNamesAmid_eq_error`).

While a flush is at work, others may take and release the lock, make the store read-only and
plan failures of calls.  This is a `Disturbance`; `Index.flushAmid` is a flush in which it
acts before each name.

A commit depends on the contents of the store only, so the pieces that repeated flushes
committed, put together, are what one undisturbed flush commits (`Index.flush_resumes`). -/

namespace XmlIndex

namespace Batch

variable {b b' : Batch} {q : QName} {names : List QName}

/-- The block of a name is the same, in whatever order its nodes are in the batch by now. -/
theorem Remains.blockOf_eq {before after : List NodeRef} (h : b.Remains b' names)
    (hsort : NodeRef.sort after = NodeRef.sort before) : b'.blockOf after = b.blockOf before := by
  rw [blockOf, blockOf, h.document, h.order, hsort]

/-! ## Commits -/

/-- The blocks of these names of a batch, put under their keys one after the other, lead from
one symbol table and store to another. -/
inductive Commits (b : Batch) :
    List QName → SymbolTable → Store → SymbolTable → Store → Prop
  | nil {t : SymbolTable} {s : Store} : Commits b [] t s t s
  | cons {q : QName} {names : List QName} {nodes : List NodeRef} {k : Key}
      {t t₁ t' : SymbolTable} {s s' : Store} (known : b.nodes? q = some nodes)
      (formed : Key.ofName q.kind b.document.collection q t = .ok k t₁)
      (accepted : s.Accepts k b.document.id b.order)
      (rest : Commits b names t₁ (s.appended k.toBytes (b.blockOf nodes)) t' s') :
      Commits b (q :: names) t s t' s'

namespace Commits

variable {names' : List QName} {t t' t'' : SymbolTable} {s s' s'' : Store}

/-- Commits depend on the contents of the store only. -/
theorem of_sameContents {s₁ : Store} (h : b.Commits names t s t' s') (hs : s₁.SameContents s) :
    ∃ s₁', b.Commits names t s₁ t' s₁' ∧ s₁'.SameContents s' := by
  induction h generalizing s₁ with
  | nil => exact ⟨s₁, .nil, hs⟩
  | cons known formed accepted rest ih =>
    obtain ⟨s₁', hrest, hsame⟩ := ih (hs.appended _ _)
    exact ⟨s₁', .cons known formed (hs.accepts accepted) hrest, hsame⟩

/-- Commits of some names and then of others are commits of all. -/
theorem append (h : b.Commits names t s t' s') (h' : b.Commits names' t' s' t'' s'') :
    b.Commits (names ++ names') t s t'' s'' := by
  induction h with
  | nil => exact h'
  | cons known formed accepted rest ih => exact .cons known formed accepted (ih h')

/-- What remains of a batch is committed as it would have been before. -/
theorem of_remains {waiting : List QName} (hr : b.Remains b' waiting)
    (hsub : ∀ q ∈ names, q ∈ waiting) (h : b'.Commits names t s t' s') :
    b.Commits names t s t' s' := by
  -- Induction on the commits, name by name.
  induction h with
  | nil => exact .nil
  | cons known formed accepted rest ih =>
    obtain ⟨hq, hnames⟩ := List.forall_mem_cons.mp hsub
    obtain ⟨before, after, hbefore, hafter, hsort⟩ := hr.nodes_of_mem hq
    obtain rfl := Option.some.inj (known.symm.trans hafter)
    have hrest := ih hnames
    -- The nodes may be in another order, but the block made of them is the same.
    rw [hr.blockOf_eq hsort] at hrest
    rw [hr.document] at formed accepted
    rw [hr.order] at accepted
    exact .cons hbefore formed accepted hrest

/-- A name that was tried before is committed as if it had not been tried. -/
theorem of_tried
    (h : b.Commits (q :: names) (Action.stateOf (Key.ofName q.kind b.document.collection q t)) s
      t' s') : b.Commits (q :: names) t s t' s' := by
  cases h with
  | cons known formed accepted rest =>
    rw [Key.ofName_stateOf] at formed
    exact .cons known formed accepted rest

end Commits

end Batch

/-! ## Disturbances -/

/-- What others do to the store before the `n`-th name of a flush: anything that leaves its
contents alone. -/
structure Disturbance where
  act : Nat → Store → Store
  sameContents : ∀ n s, (act n s).SameContents s

namespace Disturbance

/-- Nobody does anything. -/
def none : Disturbance := ⟨fun _ s => s, fun _ s => .refl s⟩

end Disturbance

namespace Store

/-- The store with the same contents, and nothing that stands in the way of a change. -/
def cleared (s : Store) : Store :=
  { s with readOnly := false, readers := 0, hasWriter := false, planned := fun _ => 0 }

/-- A cleared store is open. -/
theorem open_cleared (s : Store) : s.cleared.Open := ⟨rfl, rfl, fun _ => rfl⟩

/-- Clearing a store does not touch its contents. -/
theorem sameContents_cleared (s : Store) : s.cleared.SameContents s := ⟨rfl, rfl, rfl, rfl, rfl⟩

end Store

namespace Index

/-- The flush after what others do before its `done`-th name. -/
def disturbed (d : Disturbance) (done : Nat) (f : Flushing) : Flushing :=
  { f with index := { f.index with store := d.act done f.index.store } }

/-- Writes names in order, the first of them as the `done`-th, with others at the store. -/
def flushNamesAmid (d : Disturbance) : (names : List QName) → (done : Nat) → Action Flushing Unit
  | [], _ => pure ()
  | name :: names, done => do
    modify (disturbed d done)
    flushName name done
    flushNamesAmid d names (done + 1)

/-- Writes all names of a batch, with others at the store. -/
def flushAmid (d : Disturbance) : Action Flushing FlushSummary := do
  let f ← get
  if f.batch.isEmpty then return {}
  let names := f.batch.names
  set { f with progress := Progress.start names.length f.index.progressStep }
  flushNamesAmid d names 1
  modify fun f =>
    let progress := f.progress.finish
    { f with progress, reports := f.reports ++ [progress] }
  return (← get).summary

/-- Where nobody disturbs, names are flushed as they are alone. -/
theorem flushNamesAmid_none (names : List QName) (done : Nat) :
    flushNamesAmid .none names done = flushNames names done := by
  induction names generalizing done with
  | nil => rfl
  | cons name names ih =>
    rw [flushNamesAmid, flushNames, ih]
    rfl

/-- A flush is one that nobody disturbs. -/
theorem flushAmid_none : flushAmid .none = flush := by
  rw [flushAmid, flush]
  simp only [flushNamesAmid_none]

/-! ## What a flush has committed -/

section Runs

variable {d : Disturbance} {b : Batch} {name : QName} {names : List QName} {done : Nat}
  {f f' : Flushing} {e : Error}

/-- A first name that is written is committed, wherever the contents of the store come from. -/
theorem commits_of_flushName {names' : List QName} {t : SymbolTable} {s₀ s : Store}
    (hr : b.Remains f.batch (name :: names)) (hs₀ : s₀.SameContents f.index.store)
    (h : flushName name done f = .ok () f')
    (hrest : b.Commits names' f'.index.symbols f'.index.store t s) :
    ∃ s', b.Commits (name :: names') f.index.symbols s₀ t s' ∧ s'.SameContents s := by
  obtain ⟨before, after, hbefore, hafter, hsort⟩ := hr.nodes_of_mem (.head _)
  obtain ⟨k, hof, _, haccept, hsame, _⟩ := flushName_eq_ok hafter h
  -- `s₀` has the contents that the name was written to, so it accepts the block as well.
  have hstart := (hs₀.appended k.toBytes (f.batch.blockOf after)).trans hsame.sameContents.symm
  obtain ⟨s', hcommits, hsame'⟩ := hrest.of_sameContents hstart
  refine ⟨s', ?_, hsame'⟩
  have haccept₀ := hs₀.accepts haccept
  rw [hr.document] at hof haccept₀
  rw [hr.order] at haccept₀
  rw [hr.blockOf_eq hsort] at hcommits
  exact .cons hbefore hof haccept₀ hcommits

/-- After a name was written the batch has the others. -/
theorem remains_of_flushName (hr : b.Remains f.batch (name :: names))
    (h : flushName name done f = .ok () f') : b.Remains f'.batch names := by
  obtain ⟨_, after, _, hafter, _⟩ := hr.nodes_of_mem (.head _)
  obtain ⟨_, _, _, _, _, hbatch⟩ := flushName_eq_ok hafter h
  exact hbatch ▸ hr.drop_front

/-- Writing a name leaves an open store open. -/
theorem open_of_flushName (hr : b.Remains f.batch (name :: names)) (ho : f.index.store.Open)
    (h : flushName name done f = .ok () f') : f'.index.store.Open := by
  obtain ⟨_, after, _, hafter, _⟩ := hr.nodes_of_mem (.head _)
  obtain ⟨_, _, _, _, hsame, _⟩ := flushName_eq_ok hafter h
  exact hsame.open (ho.appended _ _)

/-- A flush that succeeds has committed all names. -/
theorem flushNamesAmid_eq_ok (hr : b.Remains f.batch names)
    (h : flushNamesAmid d names done f = .ok () f') :
    ∃ s, b.Commits names f.index.symbols f.index.store f'.index.symbols s ∧
      f'.index.store.SameContents s ∧ b.Remains f'.batch [] := by
  -- Induction on the names: what is left of the batch after one are the others.
  induction names generalizing done f with
  | nil =>
    obtain ⟨_, rfl⟩ := EStateM.Result.ok.inj h
    exact ⟨_, .nil, .refl _, hr⟩
  | cons name names ih =>
    obtain ⟨_, f₁, hdisturb, hrest⟩ := Action.bind_eq_ok_iff.mp h
    obtain ⟨_, rfl⟩ := EStateM.Result.ok.inj hdisturb
    obtain ⟨_, f₂, hname, hrest⟩ := Action.bind_eq_ok_iff.mp hrest
    have hr₁ : b.Remains (disturbed d done f).batch (name :: names) := hr
    obtain ⟨s, hcommits, hsame, hr'⟩ := ih (remains_of_flushName hr₁ hname) hrest
    obtain ⟨s', hcommits', hsame'⟩ :=
      commits_of_flushName hr₁ (d.sameContents done f.index.store).symm hname hcommits
    exact ⟨s', hcommits', hsame.trans hsame'.symm, hr'⟩

/-- Why the next name of a batch is not committed, when nothing stands in the way of a change:
its key cannot be formed or its block is not accepted. -/
def Refused (b : Batch) (name : QName) (t : SymbolTable) (s : Store) (e : Error) : Prop :=
  (∃ t', Key.ofName name.kind b.document.collection name t = .error e t') ∨
    b.order = .ordered ∧ ∃ k t' value,
      Key.ofName name.kind b.document.collection name t = .ok k t' ∧
      s.value? k.toBytes = some value ∧
      (Block.scan value).requireNoBlockOf b.document.id k = .error e

/-- Whether a name is refused depends on the contents of the store only. -/
theorem Refused.of_sameContents {t : SymbolTable} {s s' : Store} (h : Refused b name t s e)
    (hs : s'.SameContents s) : Refused b name t s' e := by
  rcases h with hkey | ⟨hord, k, t', value, hof, hvalue, hrefuse⟩
  · exact .inl hkey
  · exact .inr ⟨hord, k, t', value, hof, (hs.value? _).trans hvalue, hrefuse⟩

/-- A flush of these names came to an end at `name`: the names in front of it are committed,
it and those behind it are still in the batch. -/
structure Interrupted (b : Batch) (names : List QName) (t₀ : SymbolTable) (s₀ : Store)
    (f' : Flushing) (committed : List QName) (name : QName) (waiting : List QName)
    (t : SymbolTable) (s : Store) : Prop where
  names_eq : names = committed ++ name :: waiting
  commits : b.Commits committed t₀ s₀ t s
  sameContents : f'.index.store.SameContents s
  symbols : f'.index.symbols =
    Action.stateOf (Key.ofName name.kind b.document.collection name t)
  remains : b.Remains f'.batch (name :: waiting)

/-- A name that fails has committed nothing. -/
theorem interrupted_of_flushName {s₀ : Store} (hr : b.Remains f.batch (name :: names))
    (hs₀ : s₀.SameContents f.index.store) (h : flushName name done f = .error e f') :
    Interrupted b (name :: names) f.index.symbols s₀ f' [] name names f.index.symbols s₀ := by
  obtain ⟨_, after, _, hafter, _⟩ := hr.nodes_of_mem (.head _)
  obtain ⟨hsame, hreason⟩ := flushName_eq_error hafter h
  have hcontents := hsame.sameContents.trans hs₀.symm
  rw [hr.document] at hreason
  -- Either way the symbols are those that the attempt to form the key left behind.
  rcases hreason with ⟨hof, hbatch⟩ | ⟨k, hof, hbatch, _⟩
  · have hremains : b.Remains f'.batch (name :: names) := by
      rw [hbatch]
      exact hr
    exact ⟨rfl, .nil, hcontents, by rw [hof]; rfl, hremains⟩
  · have hremains : b.Remains f'.batch (name :: names) := by
      rw [hbatch]
      exact hr.restore_front hafter
    exact ⟨rfl, .nil, hcontents, by rw [hof]; rfl, hremains⟩

/-- In an open store a name fails only because it is refused. -/
theorem refused_of_flushName (hr : b.Remains f.batch (name :: names))
    (ho : f.index.store.Open) (h : flushName name done f = .error e f') :
    Refused b name f.index.symbols f.index.store e := by
  obtain ⟨_, after, _, hafter, _⟩ := hr.nodes_of_mem (.head _)
  obtain ⟨_, hreason⟩ := flushName_eq_error hafter h
  rw [hr.document, hr.order] at hreason
  -- An open store has a free lock and hinders no call, which leaves key and order as causes.
  rcases hreason with ⟨hof, _⟩ | ⟨k, hof, _, hlocked | hhindered | ⟨hord, value, hvalue, hrefuse⟩⟩
  · exact .inl ⟨_, hof⟩
  · rw [ho.free] at hlocked
    cases hlocked
  · exact absurd hhindered ho.not_hindered
  · exact .inr ⟨hord, k, _, value, hof, hvalue, hrefuse⟩

/-- A flush that fails has committed the names in front of one.  If nobody stands in the way,
that one is refused. -/
theorem flushNamesAmid_eq_error (hr : b.Remains f.batch names)
    (h : flushNamesAmid d names done f = .error e f') :
    ∃ committed name waiting t s,
      Interrupted b names f.index.symbols f.index.store f' committed name waiting t s ∧
      (f.index.store.Open → (∀ n s, s.Open → (d.act n s).Open) → Refused b name t s e) := by
  -- Induction on the names, over any store that the disturbance may have left.
  induction names generalizing done f with
  | nil => cases h
  | cons name names ih =>
    have hr₁ : b.Remains (disturbed d done f).batch (name :: names) := hr
    have hsame₁ : f.index.store.SameContents (disturbed d done f).index.store :=
      (d.sameContents done f.index.store).symm
    rcases Action.bind_eq_error_iff.mp h with hdisturb | ⟨_, f₁, hdisturb, hrest⟩
    · cases hdisturb
    obtain ⟨_, rfl⟩ := EStateM.Result.ok.inj hdisturb
    -- Either this name fails, or it is committed and a later one does.
    rcases Action.bind_eq_error_iff.mp hrest with hname | ⟨_, f₂, hname, hrest⟩
    · have hi := interrupted_of_flushName (f := disturbed d done f) hr₁ hsame₁ hname
      refine ⟨[], name, names, _, _, hi, fun ho hd => ?_⟩
      exact (refused_of_flushName hr₁ (hd _ _ ho) hname).of_sameContents hsame₁
    · obtain ⟨committed, q, waiting, t, s, hi, hrefused⟩ :=
        ih (remains_of_flushName hr₁ hname) hrest
      obtain ⟨s', hcommits, hsame⟩ := commits_of_flushName hr₁ hsame₁ hname hi.commits
      -- What was committed behind this name is committed behind it still.
      have hi' : Interrupted b (name :: names) f.index.symbols f.index.store f'
          (name :: committed) q waiting t s' := {
        names_eq := by rw [hi.names_eq, List.cons_append]
        commits := hcommits
        sameContents := hi.sameContents.trans hsame.symm
        symbols := hi.symbols
        remains := hi.remains }
      refine ⟨_, q, waiting, t, s', hi', fun ho hd => ?_⟩
      exact (hrefused (open_of_flushName hr₁ (hd _ _ ho) hname) hd).of_sameContents hsame

/-- The flush at its first name. -/
def begun (f : Flushing) : Flushing :=
  { f with progress := Progress.start f.batch.names.length f.index.progressStep }

/-- The flush with the report that it is finished. -/
def ended (f : Flushing) : Flushing :=
  { f with progress := f.progress.finish, reports := f.reports ++ [f.progress.finish] }

/-- A flush of nothing does nothing. -/
theorem flushAmid_of_isEmpty (h : f.batch.isEmpty = true) : flushAmid d f = .ok {} f := by
  refine Action.bind_eq_ok_iff.mpr ⟨f, f, rfl, ?_⟩
  simp only [h]
  rfl

/-- A flush writes the names of its batch. -/
theorem flushAmid_of_names (h : f.batch.isEmpty = false) :
    flushAmid d f =
      match flushNamesAmid d f.batch.names 1 (begun f) with
      | .ok () f₁ => .ok f₁.summary (ended f₁)
      | .error e f₁ => .error e f₁ := by
  cases hrun : flushNamesAmid d f.batch.names 1 (begun f) with
  | ok a f₁ =>
    refine Action.bind_eq_ok_iff.mpr ⟨f, f, rfl, ?_⟩
    simp only [h]
    refine Action.bind_eq_ok_iff.mpr ⟨(), begun f, rfl, ?_⟩
    exact Action.bind_eq_ok_iff.mpr ⟨(), f₁, hrun, rfl⟩
  | error e f₁ =>
    refine Action.bind_eq_error_iff.mpr (.inr ⟨f, f, rfl, ?_⟩)
    simp only [h]
    refine Action.bind_eq_error_iff.mpr (.inr ⟨(), begun f, rfl, ?_⟩)
    exact Action.bind_eq_error_iff.mpr (.inl hrun)

/-- A flush that succeeds has committed all names of its batch. -/
theorem flushAmid_eq_ok {summary : FlushSummary} (h : flushAmid d f = .ok summary f') :
    ∃ s, f.batch.Commits f.batch.names f.index.symbols f.index.store f'.index.symbols s ∧
      f'.index.store.SameContents s ∧ f.batch.Remains f'.batch [] := by
  cases hb : f.batch.isEmpty with
  | true =>
    rw [flushAmid_of_isEmpty hb] at h
    obtain ⟨_, rfl⟩ := EStateM.Result.ok.inj h
    -- A batch without names has nothing to commit.
    have hnames := Batch.isEmpty_iff.mp hb
    rw [hnames]
    exact ⟨_, .nil, .refl _, hnames ▸ f.batch.remains_self⟩
  | false =>
    rw [flushAmid_of_names hb] at h
    split at h
    · next f₁ hrun =>
      obtain ⟨_, rfl⟩ := EStateM.Result.ok.inj h
      have hcommits := flushNamesAmid_eq_ok (f := begun f) f.batch.remains_self hrun
      exact hcommits
    · cases h

/-- A flush that fails has committed the names in front of one, and has the others still to
write. -/
theorem flushAmid_eq_error (h : flushAmid d f = .error e f') :
    ∃ committed name waiting t s,
      Interrupted f.batch f.batch.names f.index.symbols f.index.store f'
        committed name waiting t s ∧
      (f.index.store.Open → (∀ n s, s.Open → (d.act n s).Open) →
        Refused f.batch name t s e) := by
  -- A batch without names is flushed without a step that could fail.
  cases hb : f.batch.isEmpty with
  | true =>
    rw [flushAmid_of_isEmpty hb] at h
    cases h
  | false =>
    rw [flushAmid_of_names hb] at h
    split at h
    · cases h
    · next hrun =>
      obtain ⟨rfl, rfl⟩ := EStateM.Result.error.inj h
      exact flushNamesAmid_eq_error (f := begun f) f.batch.remains_self hrun

end Runs

/-! ## An undisturbed flush -/

section Undisturbed

variable {i : Index} {b : Batch} {names : List QName} {f : Flushing} {t : SymbolTable}
  {s s' : Store}

/-- An undisturbed flush of nothing does nothing. -/
theorem flush_of_isEmpty (h : b.isEmpty = true) :
    flush (flushing i b) = .ok {} (flushing i b) := by
  rw [← flushAmid_none, flushAmid_of_isEmpty h]

/-- An undisturbed flush writes the names of its batch. -/
theorem flush_of_names (h : b.isEmpty = false) :
    flush (flushing i b) =
      match flushNames b.names 1 (begun (flushing i b)) with
      | .ok () f' => .ok f'.summary (ended f')
      | .error e f' => .error e f' := by
  rw [← flushAmid_none, flushAmid_of_names h, flushNamesAmid_none]
  rfl

/-- What can be committed is written if nothing stands in the way. -/
theorem flushNames_of_commits (done : Nat) (hr : b.Remains f.batch names) (ho : f.index.store.Open)
    (hs : f.index.store.SameContents s) (h : b.Commits names f.index.symbols s t s') :
    ∃ f', flushNames names done f = .ok () f' ∧ f'.index.symbols = t ∧
      f'.index.store.SameContents s' := by
  -- Induction on the names, with the commits behind the first one for the rest.
  induction names generalizing done f s with
  | nil =>
    cases h with
    | nil => exact ⟨f, rfl, rfl, hs⟩
  | cons name names ih =>
    cases h with
    | cons known formed accepted rest =>
      obtain ⟨_, after, hbefore, hafter, hsort⟩ := hr.nodes_of_mem (.head _)
      -- The commit says what the name is written as; the batch still has it.
      obtain rfl := Option.some.inj (known.symm.trans hbefore)
      have haccept := hs.accepts accepted
      rw [← hr.document] at formed haccept
      rw [← hr.order] at haccept
      -- The store takes the block, as it took it in the commit.
      obtain ⟨f₁, hname⟩ := flushName_of_accepts done hafter formed ho haccept
      obtain ⟨k, hof, _, _, hsame, _⟩ := flushName_eq_ok hafter hname
      obtain ⟨rfl, rfl⟩ := EStateM.Result.ok.inj (formed.symm.trans hof)
      rw [hr.blockOf_eq hsort] at hsame
      obtain ⟨f', hrest, hsymbols, hsame'⟩ := ih (done + 1) (remains_of_flushName hr hname)
        (open_of_flushName hr ho hname) (hsame.sameContents.trans (hs.appended _ _)) rest
      exact ⟨f', Action.bind_eq_ok_iff.mpr ⟨(), f₁, hname, hrest⟩, hsymbols, hsame'⟩

/-- A batch that can be committed is flushed if nothing stands in the way. -/
theorem flush_of_commits (ho : f.index.store.Open) (hs : f.index.store.SameContents s)
    (h : f.batch.Commits f.batch.names f.index.symbols s t s') :
    ∃ summary f', flush f = .ok summary f' ∧ f'.index.symbols = t ∧
      f'.index.store.SameContents s' := by
  rw [← flushAmid_none]
  -- Without a name there is nothing to commit.
  cases hb : f.batch.isEmpty with
  | true =>
    rw [Batch.isEmpty_iff.mp hb] at h
    cases h with
    | nil => exact ⟨{}, f, flushAmid_of_isEmpty hb, rfl, hs⟩
  | false =>
    obtain ⟨f₁, hrun, hsymbols, hsame⟩ :=
      flushNames_of_commits (f := begun f) 1 f.batch.remains_self ho hs h
    rw [flushAmid_of_names hb, flushNamesAmid_none, hrun]
    exact ⟨f₁.summary, ended f₁, rfl, hsymbols, hsame⟩

end Undisturbed

/-! ## Repeated flushes -/

/-- A batch is flushed again and again until that succeeds, with whatever disturbances; this
is the index in the end. -/
inductive FlushedUntilDone : Index → Batch → Index → Prop
  | done {i : Index} {b : Batch} {d : Disturbance} {summary : FlushSummary} {f' : Flushing}
      (h : flushAmid d (flushing i b) = .ok summary f') : FlushedUntilDone i b f'.index
  | again {i i' : Index} {b : Batch} {d : Disturbance} {e : Error} {f' : Flushing}
      (h : flushAmid d (flushing i b) = .error e f')
      (rest : FlushedUntilDone f'.index f'.batch i') : FlushedUntilDone i b i'

/-- In the end all names are committed, each once. -/
theorem FlushedUntilDone.commits {i i' : Index} {b : Batch} (h : FlushedUntilDone i b i') :
    ∃ s, b.Commits b.names i.symbols i.store i'.symbols s ∧ i'.store.SameContents s := by
  -- Induction on the attempts: the names committed first stand in front of the rest.
  induction h with
  | done h =>
    obtain ⟨s, hcommits, hsame, _⟩ := flushAmid_eq_ok h
    exact ⟨s, hcommits, hsame⟩
  | @again i i' b d e f' h rest ih =>
    obtain ⟨committed, name, waiting, t, s, hi, _⟩ := flushAmid_eq_error h
    obtain ⟨s', hcommits', hsame'⟩ := ih
    rw [hi.remains.names_eq] at hcommits'
    have hrest := hcommits'.of_remains hi.remains fun _ h => h
    -- The attempt at the failing name may have given it codes already.
    rw [hi.symbols] at hrest
    obtain ⟨s'', hrest', hsame''⟩ := hrest.of_tried.of_sameContents hi.sameContents.symm
    refine ⟨s'', ?_, hsame'.trans hsame''.symm⟩
    have hnames : b.names = committed ++ name :: waiting := hi.names_eq
    rw [hnames]
    exact hi.commits.append hrest'

/-- A flush can be repeated without loss and without repetition.

One that succeeds has put the blocks of all names under their keys and emptied the batch.  One
that fails has put there the blocks of the names in front of the failing one and changed
nothing else; the failing name and those behind it are still in the batch, with all their
nodes.  When it is repeated until it succeeds, the store has in the end the contents that one
undisturbed flush gives it.  A flush that nobody disturbs is the plain one. -/
theorem flush_resumes (i : Index) (b : Batch) :
    (∀ d summary f', flushAmid d (flushing i b) = .ok summary f' →
      (∃ s, b.Commits b.names i.symbols i.store f'.index.symbols s ∧
        f'.index.store.SameContents s) ∧ f'.batch.names = []) ∧
    (∀ d e f', flushAmid d (flushing i b) = .error e f' →
      ∃ committed name waiting, b.names = committed ++ name :: waiting ∧
        (∃ t s, b.Commits committed i.symbols i.store t s ∧ f'.index.store.SameContents s) ∧
        f'.batch.document = b.document ∧ f'.batch.order = b.order ∧
        f'.batch.names = name :: waiting ∧
        ∀ q ∈ name :: waiting, ∃ before after, b.nodes? q = some before ∧
          f'.batch.nodes? q = some after ∧ after.Perm before) ∧
    (∀ i', FlushedUntilDone i b i' →
      ∃ summary f', flush (flushing { i with store := i.store.cleared } b) = .ok summary f' ∧
        f'.index.store.SameContents i'.store ∧ f'.index.symbols = i'.symbols) ∧
    flushAmid .none = flush := by
  refine ⟨fun d summary f' h => ?_, fun d e f' h => ?_, fun i' h => ?_, flushAmid_none⟩
  · obtain ⟨s, hcommits, hsame, hremains⟩ := flushAmid_eq_ok h
    exact ⟨⟨s, hcommits, hsame⟩, hremains.names_eq⟩
  · obtain ⟨committed, name, waiting, t, s, hi, _⟩ := flushAmid_eq_error h
    refine ⟨committed, name, waiting, hi.names_eq, ⟨t, s, hi.commits, hi.sameContents⟩,
      hi.remains.document, hi.remains.order, hi.remains.names_eq, fun q hq => ?_⟩
    obtain ⟨before, after, hbefore, hafter, hsort⟩ := hi.remains.nodes_of_mem hq
    -- A failed attempt may have sorted the nodes, and does no more to them.
    refine ⟨before, after, hbefore, hafter, ?_⟩
    exact (NodeRef.perm_sort after).symm.trans (hsort ▸ NodeRef.perm_sort before)
  · obtain ⟨s, hcommits, hsame⟩ := h.commits
    obtain ⟨summary, f', hflush, hsymbols, hsame'⟩ :=
      flush_of_commits (f := flushing { i with store := i.store.cleared } b)
        i.store.open_cleared i.store.sameContents_cleared hcommits
    exact ⟨summary, f', hflush, hsame'.trans hsame.symm, hsymbols⟩

/-- A batch with one node. -/
def oneNode : Batch :=
  (Batch.firstLoad ⟨1, 7, "/db/a.xml"⟩).restore { localName := "id", kind := .attrId }
    [{ doc := 1, node := ⟨[1]⟩ }]

/-- A batch with nodes of two names. -/
def twoNames : Batch :=
  oneNode.restore { localName := "no", kind := .attrId } [{ doc := 1, node := ⟨[2]⟩ }]

/-- An empty index whose store refuses the second block. -/
def refusing : Index where
  store := ({ name := "nodes", timeout := ⟨100⟩ } : Store).plan .append 2
  symbols := .empty
  progressStep := 10

/-- What the first attempt leaves. -/
def afterFlushRefusal : Flushing := Action.stateOf (flush (flushing refusing twoNames))

/-- The first attempt is stopped at its second block. -/
theorem flush_refusing :
    flush (flushing refusing twoNames) = .error (.injected "append") afterFlushRefusal := rfl

/-- The second attempt goes through. -/
theorem flush_afterFlushRefusal : ∃ summary f,
    flush (flushing afterFlushRefusal.index afterFlushRefusal.batch) = .ok summary f :=
  ⟨_, _, rfl⟩

/-- The first attempt commits one name and keeps the other; the second one ends what an undisturbed
flush does. -/
theorem flush_twoNames_resumes :
    (∃ t s, twoNames.Commits [{ localName := "id", kind := .attrId }] refusing.symbols
      refusing.store t s ∧ afterFlushRefusal.index.store.SameContents s) ∧
    afterFlushRefusal.batch.names = [{ localName := "no", kind := .attrId }] ∧
    ∃ i', FlushedUntilDone refusing twoNames i' ∧ ∃ summary f',
      flush (flushing { refusing with store := refusing.store.cleared } twoNames) =
        .ok summary f' ∧
      f'.index.store.SameContents i'.store ∧ f'.index.symbols = i'.symbols := by
  have herror := flush_refusing
  obtain ⟨_, _, hok⟩ := flush_afterFlushRefusal
  rw [← flushAmid_none] at herror hok
  obtain ⟨_, hstops, huntil, _⟩ := flush_resumes refusing twoNames
  obtain ⟨committed, name, waiting, hnames, hcommits, _, _, hwaiting, _⟩ := hstops _ _ _ herror
  have hkept : afterFlushRefusal.batch.names = [{ localName := "no", kind := .attrId }] := rfl
  -- What is not in the batch any more is the first name.
  rw [← hwaiting, hkept] at hnames
  have hcommitted : [{ localName := "id", kind := .attrId }] = committed :=
    (List.append_inj' (hnames : [_] ++ [_] = _) rfl).1
  subst hcommitted
  have hdone : FlushedUntilDone refusing twoNames _ := .again herror (.done hok)
  exact ⟨hcommits, hkept, _, hdone, huntil _ hdone⟩

end Index

end XmlIndex
