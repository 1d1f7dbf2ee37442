import XmlIndex.Proofs.BlockRoundTrip
import XmlIndex.Proofs.CursorPosition
import XmlIndex.Proofs.CutInput

/-! # Values that are cut off

A value made of written blocks that ends between two of them is the value of those in front of the
cut; one that ends inside a block is read up to that block, and there the bytes are malformed
(`Block.scanFrom_of_cut`).  The body of a block is made of entries in the same way, but has a
closing mark, so no part of it passes for a body: decoding it as a block (`Block.entries_of_cut`)
and walking through it with a cursor (`Cursor.walk_of_cut`) both fail.

`Cursor.walk` is such a walk to the end; it comes to what reading the body at once comes to
(`Cursor.walk_eq`). -/

namespace XmlIndex

open Input

/-! ## Bodies -/

/-- A body that is cut off cannot be read to its end. -/
theorem Entry.error_of_cut {es : List Entry} (hes : ∀ e ∈ es, e.Storable) {n : Nat}
    (hn : n < (encodeBody es).length) :
    ∃ e i', readAll (.ofBytes ((encodeBody es).take n)) = .error e i' ∧
      e.kind = .malformedStream :=
  (takes_readAll hes).error_of_cut isLocal_readAll faultsStay_readAll rfl hn

/-- What is read is the first entry and then the rest. -/
theorem Entry.outcomeOf_readAll_of_some {entry : Entry} {i i' : Input}
    (h : read? i = .ok (some entry) i') :
    Action.outcomeOf (readAll i) = (entry :: ·) <$> Action.outcomeOf (readAll i') := by
  cases hr : readAll i' with
  | ok es i'' =>
    rw [readAll_eq_ok_cons_iff.mpr ⟨i', h, hr⟩]
    rfl
  | error e i'' =>
    rw [readAll_eq_error_iff.mpr (.inr ⟨entry, i', h, hr⟩)]
    rfl

/-- A block whose body is a part of a written one is not decoded, whatever its header says. -/
theorem Block.entries_of_cut {es : List Entry} (hes : ∀ e ∈ es, e.Storable) {n : Nat}
    (hn : n < (Entry.encodeBody es).length) {b : Block}
    (hb : b.body = (Entry.encodeBody es).take n) :
    ∃ e, b.entries = .error e ∧ e.kind = .malformedStream := by
  obtain ⟨e, i', hread, hkind⟩ := Entry.error_of_cut hes hn
  rw [entries]
  -- Whether the count or the reading fails first depends on the header.
  split
  · exact ⟨_, rfl, rfl⟩
  · rw [hb, hread]
    exact ⟨e, rfl, hkind⟩

namespace Cursor

variable {c : Cursor} {entry : Entry}

/-! ## Walks -/

/-- The entries that a cursor comes to, from the next one on. -/
def collect (c : Cursor) : Except Error (List Entry) :=
  match _h : advance c with
  | .error e _ => .error e
  | .ok none _ => .ok []
  | .ok (some entry) c' => (entry :: ·) <$> collect c'
termination_by c.left
decreasing_by exact advance_left _h

/-- The entries that a cursor on the body comes to, the first one included. -/
def walk (body : Bytes) : Except Error (List Entry) := do
  let c ← ofBody body
  match c.current? with
  | none => return []
  | some entry => (entry :: ·) <$> c.collect

/-- A cursor that fails ends the walk with its failure. -/
theorem collect_of_error {e : Error} {c' : Cursor} (h : advance c = .error e c') :
    c.collect = .error e := by
  rw [collect]
  split
  · next h' =>
    obtain ⟨rfl, -⟩ := EStateM.Result.error.inj (h.symm.trans h')
    rfl
  · next h' => cases h.symm.trans h'
  · next h' => cases h.symm.trans h'

/-- A cursor at the closing mark ends the walk. -/
theorem collect_of_none {c' : Cursor} (h : advance c = .ok none c') : c.collect = .ok [] := by
  rw [collect]
  split
  · next h' => cases h.symm.trans h'
  · rfl
  · next h' => cases (EStateM.Result.ok.inj (h.symm.trans h')).1

/-- A cursor that goes on to an entry goes on from there. -/
theorem collect_of_some {c' : Cursor} (h : advance c = .ok (some entry) c') :
    c.collect = (entry :: ·) <$> c'.collect := by
  rw [collect]
  split
  · next h' => cases h.symm.trans h'
  · next h' => cases (EStateM.Result.ok.inj (h.symm.trans h')).1
  · next h' =>
    obtain ⟨hentry, rfl⟩ := EStateM.Result.ok.inj (h.symm.trans h')
    obtain rfl := Option.some.inj hentry
    rfl

/-- A cursor on an entry goes on to what is read behind it. -/
theorem advance_of_current? (hc : c.current? = some entry) :
    advance c =
      match Entry.read? c.input with
      | .ok next? input => .ok next? { c with input, current? := next?, pos := c.input.pos }
      | .error e input => .error e { c with input, pos := c.input.pos } := by
  have hend : c.atEnd = false := by rw [atEnd, hc]; rfl
  rw [advance, Action.get_bind]
  simp only [hend, Bool.false_eq_true, if_false]
  -- The cursor moves whether or not the entry can be read.
  cases hread : Entry.read? c.input with
  | ok next? input =>
    have hload : load c = .ok () { c with input, current? := next?, pos := c.input.pos } := by
      simp only [load, hread]
    rw [Action.bind_of_ok hload]
    rfl
  | error e input =>
    have hload : load c = .error e { c with input, pos := c.input.pos } := by
      simp only [load, hread]
    exact Action.bind_of_error hload

/-- A cursor on an entry comes to the entries that can be read behind it. -/
theorem collect_eq (hc : c.current? = some entry) :
    c.collect = Action.outcomeOf (Entry.readAll c.input) := by
  -- Induction on what is left of the body: each step takes an entry off it.
  induction hleft : c.left using Nat.strongRecOn generalizing c entry with
  | ind n ih =>
    have hadvance := advance_of_current? hc
    cases hread : Entry.read? c.input with
    | error e input =>
      rw [hread] at hadvance
      rw [collect_of_error hadvance, Entry.readAll_eq_error_iff.mpr (.inl hread)]
      rfl
    | ok next? input =>
      rw [hread] at hadvance
      cases next? with
      | none =>
        rw [collect_of_none hadvance, Entry.readAll_eq_ok_nil_iff.mpr hread]
        rfl
      | some next =>
        have hless := advance_left hadvance
        rw [collect_of_some hadvance, ih _ (by omega) rfl rfl,
          Entry.outcomeOf_readAll_of_some hread]

/-- A cursor on a body goes to what is read at its front. -/
theorem ofBody_eq (body : Bytes) :
    ofBody body =
      match Entry.read? (.ofBytes body) with
      | .ok first? input => .ok { input, current? := first?, pos := 0, marked := 0 }
      | .error e _ => .error e := by
  -- A body whose first entry cannot be read has no cursor.
  cases hread : Entry.read? (.ofBytes body) with
  | ok first? input => exact ofBody_eq_ok_iff.mpr ⟨⟨rfl, hread⟩, rfl⟩
  | error e input =>
    have hload : load { input := .ofBytes body, current? := none, pos := 0, marked := 0 } =
        .error e { input, current? := none, pos := 0, marked := 0 } := by
      simp only [load, hread]
      rfl
    rw [ofBody, Action.bind_of_error hload]
    rfl

/-- A walk to the end comes to what reading the body at once comes to. -/
theorem walk_eq (body : Bytes) :
    walk body = Action.outcomeOf (Entry.readAll (.ofBytes body)) := by
  rw [walk, ofBody_eq]
  -- The first entry is read in either way, and the rest by going on.
  cases hread : Entry.read? (.ofBytes body) with
  | error e input =>
    rw [Entry.readAll_eq_error_iff.mpr (.inl hread)]
    rfl
  | ok first? input =>
    cases first? with
    | none =>
      rw [Entry.readAll_eq_ok_nil_iff.mpr hread]
      rfl
    | some first =>
      rw [Entry.outcomeOf_readAll_of_some hread, ← collect_eq (c := ⟨input, some first, 0, 0⟩) rfl]
      rfl

/-- A walk through a whole body comes to its entries. -/
theorem walk_encodeBody {es : List Entry} (hes : ∀ e ∈ es, e.Storable) :
    walk (Entry.encodeBody es) = .ok es := by
  obtain ⟨i', hread, -⟩ := Entry.takes_readAll hes (.ofBytes (Entry.encodeBody es)) []
    (List.append_nil _).symm
  rw [walk_eq, hread]
  rfl

/-- A walk through a part of a body fails. -/
theorem walk_of_cut {es : List Entry} (hes : ∀ e ∈ es, e.Storable) {n : Nat}
    (hn : n < (Entry.encodeBody es).length) :
    ∃ e, walk ((Entry.encodeBody es).take n) = .error e ∧ e.kind = .malformedStream := by
  obtain ⟨e, i', hread, hkind⟩ := Entry.error_of_cut hes hn
  exact ⟨e, by rw [walk_eq, hread]; rfl, hkind⟩

end Cursor

/-! ## Values -/

/-- A cut is between two blocks or inside one. -/
theorem Draft.exists_cut {ds : List Draft} {n : Nat} (hn : n ≤ (ds.flatMap encode).length) :
    ∃ whole rest, ds = whole ++ rest ∧
      ((n = (whole.flatMap encode).length ∧
          (ds.flatMap encode).take n = whole.flatMap encode) ∨
        ∃ d more m, rest = d :: more ∧ 0 < m ∧ m < d.encode.length ∧
          n = (whole.flatMap encode).length + m ∧
          (ds.flatMap encode).take n = whole.flatMap encode ++ d.encode.take m) := by
  -- Induction on the blocks: the cut is in the first one, or as far behind it.
  induction ds generalizing n with
  | nil =>
    obtain rfl := Nat.le_zero.mp hn
    exact ⟨[], [], rfl, .inl ⟨rfl, rfl⟩⟩
  | cons d ds ih =>
    rw [List.flatMap_cons, List.length_append] at hn
    rcases Nat.lt_or_ge n d.encode.length with hinside | hbehind
    · -- The cut is in front of this block or inside it.
      refine ⟨[], d :: ds, rfl, ?_⟩
      rcases Nat.eq_zero_or_pos n with rfl | hpos
      · exact .inl ⟨rfl, rfl⟩
      · refine .inr ⟨d, ds, n, rfl, hpos, hinside, (Nat.zero_add n).symm, ?_⟩
        rw [List.flatMap_cons, List.take_append_of_le_length hinside.le]
        rfl
    · obtain ⟨m, rfl⟩ := Nat.exists_eq_add_of_le hbehind
      have htake : ((d :: ds).flatMap encode).take (d.encode.length + m) =
          d.encode ++ (ds.flatMap encode).take m := by
        rw [List.flatMap_cons, List.take_length_add_append]
      -- The first block is whole, and the cut is in the others.
      obtain ⟨whole, rest, rfl, hcut⟩ := ih (n := m) (by omega)
      refine ⟨d :: whole, rest, rfl, ?_⟩
      rw [htake, List.flatMap_cons, List.length_append]
      refine hcut.imp ?_ ?_
      · rintro ⟨rfl, hfront⟩
        exact ⟨rfl, by rw [hfront]⟩
      · rintro ⟨d', more, k, hrest, hpos, hless, rfl, hfront⟩
        exact ⟨d', more, k, hrest, hpos, hless, by omega, by rw [hfront, List.append_assoc]⟩

namespace Block

/-- Behind well-framed blocks a part of another one is malformed. -/
theorem scan_of_cut {bs : List Block} {b : Block} (hbs : ∀ b ∈ bs, b.WellFramed)
    (hb : b.WellFramed) {n : Nat} (hpos : 0 < n) (hn : n < b.raw.length) :
    ∃ e, scan (valueOf bs ++ b.raw.take n) = ⟨bs, some e⟩ ∧ e.kind = .malformedStream := by
  obtain ⟨j, -, hrest, hscan⟩ := exists_scanFrom_append
    (i := .ofBytes (valueOf bs ++ b.raw.take n)) rfl hbs
  obtain ⟨e, j', hread, hkind⟩ := hb.error_of_cut isLocal_read faultsStay_read hrest hn
  -- At least one byte of the block is there, so the scan does not end before it.
  have hleft : j.left ≠ 0 := by
    rw [left, hrest, List.length_take]
    omega
  refine ⟨e, ?_, hkind⟩
  rw [scan, hscan, scanFrom_of_error hleft hread, List.append_nil]

/-- A value made of written blocks that is cut off is read up to the cut.  If that is between two
blocks, those in front of it are all that is read; if it is inside a block, wherever there, they
are followed by the fault that the bytes are malformed.

Likewise no part of a body is taken for a body, neither when a block with it is decoded nor by a
cursor that goes through it to the end, as it does through the whole body. -/
theorem cut_is_noticed {ds : List Draft} (h : ∀ d ∈ ds, Entry.FitBlock d.entries) :
    (∀ n ≤ (ds.flatMap Draft.encode).length, ∃ whole rest bs, ds = whole ++ rest ∧
      List.Forall₂ Draft.ReadAs whole bs ∧
      ((n = (whole.flatMap Draft.encode).length ∧
          scan ((ds.flatMap Draft.encode).take n) = ⟨bs, none⟩) ∨
        ∃ d more e, rest = d :: more ∧ (whole.flatMap Draft.encode).length < n ∧
          n < (whole.flatMap Draft.encode).length + d.encode.length ∧
          scan ((ds.flatMap Draft.encode).take n) = ⟨bs, some e⟩ ∧
          e.kind = .malformedStream)) ∧
    ∀ es : List Entry, (∀ e ∈ es, e.Storable) →
      Cursor.walk (Entry.encodeBody es) = .ok es ∧ ∀ n < (Entry.encodeBody es).length,
        (∀ b : Block, b.body = (Entry.encodeBody es).take n →
          ∃ e, b.entries = .error e ∧ e.kind = .malformedStream) ∧
        ∃ e, Cursor.walk ((Entry.encodeBody es).take n) = .error e ∧
          e.kind = .malformedStream := by
  refine ⟨fun n hn => ?_, fun es hes => ⟨Cursor.walk_encodeBody hes, fun n hn =>
    ⟨fun b hb => entries_of_cut hes hn hb, Cursor.walk_of_cut hes hn⟩⟩⟩
  obtain ⟨whole, rest, rfl, hcut⟩ := Draft.exists_cut hn
  obtain ⟨hwhole, hrest⟩ := List.forall_mem_append.mp h
  obtain ⟨bs, hvalue, hwell, hread⟩ := Draft.exists_blocks hwhole
  -- Between two blocks nothing is noticed; inside one the block behind the cut is missing.
  refine ⟨whole, rest, bs, rfl, hread, hcut.imp ?_ ?_⟩
  · rintro ⟨hlength, hfront⟩
    exact ⟨hlength, scan_eq_iff.mpr ⟨hfront.trans hvalue, hwell⟩⟩
  · rintro ⟨d, more, m, rfl, hpos, hless, rfl, hfront⟩
    have hd := wellFramed_ofEntries d.doc d.order (hrest d List.mem_cons_self)
    obtain ⟨e, hscan, hkind⟩ := scan_of_cut hwell hd hpos hless
    refine ⟨d, more, e, rfl, by omega, by omega, ?_, hkind⟩
    rw [hfront, hvalue]
    exact hscan

/-- A block with one node, of two levels. -/
def nodeDraft : Draft := ⟨1, .ordered, [⟨⟨[1, 300]⟩, ⟨10⟩⟩]⟩

/-- A block without nodes. -/
def emptyDraft : Draft := ⟨2, .unordered, []⟩

/-- The first block takes 20 bytes.  A cut two bytes further on leaves it as it is, and the second
one, of which the number and the order are left, is malformed. -/
theorem cut_is_noticed_twoDrafts :
    ∃ b e, scan (([nodeDraft, emptyDraft].flatMap Draft.encode).take 22) = ⟨[b], some e⟩ ∧
      nodeDraft.ReadAs b ∧ e.kind = .malformedStream := by
  have hfit : ∀ d ∈ [nodeDraft, emptyDraft], Entry.FitBlock d.entries := by
    have hfits : ∀ d ∈ [nodeDraft, emptyDraft],
        (∀ e ∈ d.entries, e.node.Valid ∧ e.node.levels.length < UInt32.size) ∧
          (Entry.encodeBody d.entries).length < UInt32.size := by
      decide +kernel
    exact hfits
  have hlength : nodeDraft.encode.length = 20 := by decide +kernel
  have hlength' : emptyDraft.encode.length = 8 := by decide +kernel
  obtain ⟨hcut, -⟩ := cut_is_noticed hfit
  obtain ⟨whole, rest, bs, hds, hread, hcase⟩ := hcut 22 (by simp [hlength, hlength'])
  -- Of the ways to split the two blocks, the cut only fits the one between them.
  rcases whole with _ | ⟨d₁, _ | ⟨d₂, whole⟩⟩
  · obtain ⟨h, -⟩ | ⟨d, more, e, rfl, -, h, -⟩ := hcase
    · cases h
    · obtain ⟨rfl, -⟩ := List.cons.inj hds
      simp [hlength] at h
  · obtain ⟨rfl, rfl⟩ := List.cons.inj hds
    obtain ⟨h, -⟩ | ⟨d, more, e, -, -, -, hscan, hkind⟩ := hcase
    · simp [hlength] at h
    -- The first block is read, and the second is where the scan ends.
    · obtain ⟨b, _, hb, hnil, rfl⟩ := List.forall₂_cons_left_iff.mp hread
      obtain rfl := List.forall₂_nil_left_iff.mp hnil
      exact ⟨b, e, hscan, hb, hkind⟩
  · obtain ⟨rfl, hbehind⟩ := List.cons.inj hds
    obtain ⟨rfl, hnil⟩ := List.cons.inj hbehind
    obtain ⟨rfl, rfl⟩ := List.append_eq_nil_iff.mp hnil.symm
    obtain ⟨h, -⟩ | ⟨d, more, e, h, -⟩ := hcase
    · simp [hlength, hlength'] at h
    · cases h

end Block

end XmlIndex
