import XmlIndex.Proofs.BlockRewriting
import XmlIndex.Proofs.MovedInput

/-! # Any bytes as blocks

Whatever the bytes of a value are, reading them comes to some blocks and at most one fault behind
them.  The blocks stand at the front of the bytes, one directly behind the other, and they are all
of the bytes exactly if there is no fault (`Block.exists_rest`).  Each is its header and then its
body (`Block.wellFramed_iff_laidOut`).

So a value without a fault is what a copy of its blocks comes to, and bytes put behind it are read
as if they stood alone, except for the offset that their fault names (`Block.scan_append`).

A `Block.Reader` takes the blocks one at a time, and stops at a fault.  What it answers is what
`Block.scan` finds (`Block.Reader.answer_eq`). -/

namespace XmlIndex

open Input

/-- The blocks with the offset moved on that the fault names. -/
def Framing.moved (n : Nat) (f : Framing) : Framing :=
  { f with fault? := f.fault?.map (Error.moved n) }

namespace Block

/-! ## Headers -/

/-- The bytes are the header of the block: the number of the document, the order, the number of
entries and the length of the body. -/
def HasHeader (b : Block) (header : Bytes) : Prop :=
  ∃ ds code cs ls, header = ds ++ code :: (cs ++ ls) ∧
    Varint.decode ds = .ok (b.doc, ds.length) ∧ BlockOrder.ofByte code = .ok b.order ∧
    Varint.decode cs = .ok (b.count, cs.length) ∧
    ls.length = 4 ∧ b.byteLength = UInt32.ofNat (Bytes.ofLittleEndian ls)

/-- What is read as a block is a header and then as many bytes as it says. -/
theorem exists_header_of_readParts {i i' : Input} {parts : Block}
    (h : readParts i = .ok parts i') :
    ∃ header, parts.HasHeader header ∧ i.rest = header ++ parts.body ++ i'.rest ∧
      parts.body.length = parts.byteLength.toNat := by
  obtain ⟨doc, i₁, hx₁, h⟩ := Action.bind_eq_ok_iff.mp h
  obtain ⟨code, i₂, hx₂, h⟩ := Action.bind_eq_ok_iff.mp h
  obtain ⟨order, i₃, ho, h⟩ := Action.bind_eq_ok_iff.mp h
  obtain ⟨count, i₄, hx₃, h⟩ := Action.bind_eq_ok_iff.mp h
  obtain ⟨byteLength, i₅, hx₄, h⟩ := Action.bind_eq_ok_iff.mp h
  obtain ⟨body, i₆, hx₅, h⟩ := Action.bind_eq_ok_iff.mp h
  obtain ⟨rfl, rfl⟩ := EStateM.Result.ok.inj h
  obtain ⟨hcode, rfl⟩ := Action.ofExcept_eq_ok_iff.mp ho
  -- The segments of the reads, one behind the other.
  obtain ⟨ds, hr₁, hdoc, -⟩ := varint_eq_ok hx₁
  have hr₂ := (byte_eq_ok hx₂).1
  obtain ⟨cs, hr₃, hcount, -⟩ := varint_eq_ok hx₃
  obtain ⟨ls, hr₄, hwidth, hlength⟩ := fixed32_eq_ok hx₄
  obtain ⟨hr₅, hbody, -⟩ := raw_eq_ok hx₅
  refine ⟨ds ++ code :: (cs ++ ls), ⟨ds, code, cs, ls, rfl, hdoc, hcode, hcount, hwidth, hlength⟩,
    ?_, hbody⟩
  rw [hr₁, hr₂, hr₃, hr₄, hr₅]
  simp only [List.append_assoc, List.cons_append]

/-- The bytes of the block are its header and then its body, of the length that the header says. -/
def LaidOut (b : Block) : Prop :=
  ∃ header, b.HasHeader header ∧ b.raw = header ++ b.body ∧ b.body.length = b.byteLength.toNat

/-- What is read from its own bytes is laid out as a block, and what is laid out so is read. -/
theorem wellFramed_iff_laidOut {b : Block} : b.WellFramed ↔ b.LaidOut := by
  constructor
  -- What is read is the header, and then as many bytes as it says.
  · intro h
    obtain ⟨i', hread, -, hrest⟩ := h (.ofBytes b.raw) [] (List.append_nil _).symm
    obtain ⟨parts, hparts, hb⟩ := read_eq_ok_iff.mp hread
    obtain ⟨header, hheader, hraw, hlength⟩ := exists_header_of_readParts hparts
    rw [hrest, List.append_nil] at hraw
    rw [hb] at hraw ⊢
    exact ⟨header, hheader, hraw, hlength⟩
  · rintro ⟨header, ⟨ds, code, cs, ls, rfl, hdoc, hcode, hcount, hwidth, hlength⟩, hraw, hbody⟩
    have hls := takes_fixed32 hwidth
    rw [← hlength] at hls
    have htakes := takes_read (takes_varint_of_decode hdoc) (takes_byte code) hcode
      (takes_varint_of_decode hcount) hls hbody
    have hbytes : b.raw = ds ++ ([code] ++ (cs ++ (ls ++ b.body))) := by
      rw [hraw]
      simp only [List.append_assoc, List.cons_append, List.nil_append]
    rw [← hbytes] at htakes
    exact htakes

/-! ## Blocks at the front of any bytes -/

/-- The blocks found are well framed and stand in front, and behind them there are bytes left
exactly if there is a fault. -/
theorem exists_rest (i : Input) :
    ∃ rest, i.rest = valueOf (scanFrom i).blocks ++ rest ∧
      (rest = [] ↔ (scanFrom i).fault? = none) ∧ ∀ b ∈ (scanFrom i).blocks, b.WellFramed := by
  -- Induction along the scan: at the end, at a fault, or behind a block.
  induction i using scanFrom.induct with
  | case1 i hleft =>
    rw [scanFrom_of_left_eq_zero hleft]
    exact ⟨[], by rw [List.length_eq_zero_iff.mp hleft]; rfl, by simp, by simp⟩
  | case2 i hleft e i' hread =>
    rw [scanFrom_of_error hleft hread]
    have hrest : i.rest ≠ [] := List.ne_nil_of_length_pos (Nat.pos_of_ne_zero hleft)
    exact ⟨i.rest, rfl, by simpa using hrest, by simp⟩
  | case3 i hleft b i' hread ih =>
    obtain ⟨rest, hrest, hfault, hwell⟩ := ih
    obtain ⟨hb, hr, -⟩ := read_eq_ok hread
    rw [scanFrom_of_read hread]
    refine ⟨rest, ?_, hfault, List.forall_mem_cons.mpr ⟨hb, hwell⟩⟩
    rw [hr, hrest, valueOf_cons, List.append_assoc]

/-! ## Bytes behind blocks -/

/-- The parts of a block are read the same with more bytes in front. -/
theorem uniform_readParts : Uniform readParts := by
  -- An order that is not known is told without an offset.
  have horder : ∀ code n e, BlockOrder.ofByte code = .error e → e.moved n = e := by
    intro code n e h
    rw [BlockOrder.ofByte] at h
    split at h
    · cases h
    · split at h
      · cases h
      · obtain rfl := Except.error.inj h
        rfl
  exact uniform_varint.bind fun _ => uniform_byte.bind fun code =>
    (Uniform.ofExcept (horder code)).bind fun _ => uniform_varint.bind fun _ =>
      uniform_fixed32.bind fun _ => (uniform_raw _).bind fun _ => .pure _

/-- A block is read the same with more bytes in front. -/
theorem uniform_read : Uniform read := by
  intro front i
  have hparts := uniform_readParts front i
  cases h : readParts i with
  | ok parts i' =>
    rw [h] at hparts
    rw [read_eq_ok_iff.mpr ⟨parts, h, rfl⟩]
    refine read_eq_ok_iff.mpr ⟨parts, hparts, ?_⟩
    -- Both positions have moved on.
    rw [show (i'.behind front).pos - (i.behind front).pos = i'.pos - i.pos from
      Nat.add_sub_add_left _ _ _, rest_behind]
  | error e i' =>
    rw [h] at hparts
    rw [read_eq_error_iff.mpr h]
    exact read_eq_error_iff.mpr hparts

/-- A scan comes to the same with more bytes in front, but for the offset of its fault. -/
theorem scanFrom_behind (front : Bytes) (i : Input) :
    scanFrom (i.behind front) = (scanFrom i).moved front.length := by
  -- Induction along the scan; each block is read the same.
  induction i using scanFrom.induct with
  | case1 i hleft =>
    rw [scanFrom_of_left_eq_zero hleft, scanFrom_of_left_eq_zero (i := i.behind front) hleft]
    rfl
  | case2 i hleft e i' hread =>
    have hmoved := uniform_read front i
    rw [hread] at hmoved
    rw [scanFrom_of_error hleft hread, scanFrom_of_error (i := i.behind front) hleft hmoved]
    rfl
  | case3 i hleft b i' hread ih =>
    have hmoved := uniform_read front i
    rw [hread] at hmoved
    rw [scanFrom_of_read hread, scanFrom_of_read hmoved, ih]
    rfl

/-- What stands behind a value is read as if it stood alone. -/
theorem scan_append {value : Bytes} {bs : List Block} (h : scan value = ⟨bs, none⟩)
    (more : Bytes) :
    scan (value ++ more) =
      ⟨bs ++ (scan more).blocks, (scan more).fault?.map (Error.moved value.length)⟩ := by
  obtain ⟨hvalue, hwell⟩ := scan_eq_iff.mp h
  obtain ⟨j, hd, hr, hscan⟩ := exists_scanFrom_append (i := .ofBytes (value ++ more))
    (congrArg (· ++ more) hvalue) hwell
  -- The scan has come to the input of `more`, with all of the value in front.
  obtain rfl := eq_behind_of_rest hd hr
  rw [scan, hscan, scanFrom_behind]
  rfl

/-! ## One block at a time -/

/-- A reader of blocks: where it stands, and whether it has come upon a fault. -/
structure Reader where
  input : Input
  failed : Bool := false

/-- A reader at the front of a value. -/
def Reader.ofValue (value : Bytes) : Reader := { input := .ofBytes value }

/-- The next block; there is none at the end, nor behind a fault. -/
def Reader.next : Action Reader (Option Block) := fun r =>
  if r.failed ∨ r.input.left = 0 then .ok none r
  else
    match read r.input with
    | .ok b input => .ok (some b) { r with input }
    | .error e input => .error e { input, failed := true }

/-- The reader after some calls. -/
def Reader.after (r : Reader) : (calls : Nat) → Reader
  | 0 => r
  | calls + 1 => Reader.after (Action.stateOf (next r)) calls

/-- What the reader answers after some calls. -/
def Reader.answer (r : Reader) (calls : Nat) : Except Error (Option Block) :=
  Action.outcomeOf (next (r.after calls))

end Block

/-- The blocks as answers, and behind them the fault. -/
def Framing.answers (f : Framing) : List (Except Error (Option Block)) :=
  f.blocks.map (fun b => .ok (some b)) ++ f.fault?.toList.map .error

namespace Block

namespace Reader

variable {r : Reader} {i i' : Input}

/-- At the end or behind a fault there is no next block. -/
theorem next_of_done (h : r.failed ∨ r.input.left = 0) : next r = .ok none r := if_pos h

/-- The next block is the one that is read. -/
theorem next_of_read {b : Block} (h : read i = .ok b i') :
    next ⟨i, false⟩ = .ok (some b) ⟨i', false⟩ := by
  have hleft := read_left h
  have hgoes : ¬ (false = true ∨ i.left = 0) := by simp; omega
  simp only [next, if_neg hgoes, h]

/-- A reader that cannot read a block has come upon a fault. -/
theorem next_of_error {e : Error} (hleft : i.left ≠ 0) (h : read i = .error e i') :
    next ⟨i, false⟩ = .error e ⟨i', true⟩ := by
  have hgoes : ¬ (false = true ∨ i.left = 0) := by simpa using hleft
  simp only [next, if_neg hgoes, h]

/-- A later answer is one of the reader after the first call. -/
theorem answer_succ (r : Reader) (calls : Nat) :
    r.answer (calls + 1) = (Action.stateOf (next r)).answer calls := rfl

/-- A reader that is done remains so. -/
theorem answer_of_done (h : r.failed ∨ r.input.left = 0) (calls : Nat) :
    r.answer calls = .ok none := by
  induction calls with
  | zero =>
    rw [answer, after, next_of_done h]
    rfl
  | succ calls ih => rwa [answer_succ, next_of_done h]

/-- A reader answers the blocks in turn and then the fault, and after that nothing. -/
theorem answer_eq (i : Input) (calls : Nat) :
    answer ⟨i, false⟩ calls = (scanFrom i).answers[calls]?.getD (.ok none) := by
  -- Induction along the scan, with any number of calls.
  induction i using scanFrom.induct generalizing calls with
  | case1 i hleft =>
    rw [answer_of_done (.inr hleft), scanFrom_of_left_eq_zero hleft]
    rfl
  | case2 i hleft e i' hread =>
    rw [scanFrom_of_error hleft hread]
    cases calls with
    | zero =>
      rw [answer, after, next_of_error hleft hread]
      rfl
    | succ calls =>
      rw [answer_succ, next_of_error hleft hread]
      -- Behind a fault there is nothing more.
      exact answer_of_done (.inl rfl) calls
  | case3 i hleft b i' hread ih =>
    rw [scanFrom_of_read hread]
    cases calls with
    | zero =>
      rw [answer, after, next_of_read hread]
      rfl
    | succ calls =>
      rw [answer_succ, next_of_read hread]
      -- Behind a block the scan goes on with the other calls.
      exact ih calls

end Reader

/-- Reading any bytes comes to some blocks and at most one fault, and then to nothing.  The bytes
of the blocks stand in front and are all there are exactly if there is no fault; each block is its
header and a body of the length that the header says, and bytes made up of such blocks are read as
these.

Without a fault a copy of all blocks is the value again, and bytes put behind it are read as if they
stood alone, except for the offset that their fault names. -/
theorem scan_partitions (value : Bytes) :
    (∀ calls, (Reader.ofValue value).answer calls =
      (scan value).answers[calls]?.getD (.ok none)) ∧
    (∃ rest, value = valueOf (scan value).blocks ++ rest ∧
      (rest = [] ↔ (scan value).fault? = none)) ∧
    (∀ b ∈ (scan value).blocks, b.LaidOut) ∧
    (∀ bs, value = valueOf bs → (∀ b ∈ bs, b.LaidOut) → scan value = ⟨bs, none⟩) ∧
    ((scan value).fault? = none →
      valueOf (scan value).blocks = value ∧
      (∀ doc, (∀ b ∈ (scan value).blocks, b.doc ≠ doc) →
        (scan value).without doc = .ok (value, false)) ∧
      ∀ more, scan (value ++ more) = ⟨(scan value).blocks ++ (scan more).blocks,
        (scan more).fault?.map (Error.moved value.length)⟩) := by
  obtain ⟨rest, hrest, hfault, hwell⟩ := exists_rest (.ofBytes value)
  refine ⟨Reader.answer_eq (.ofBytes value), ⟨rest, hrest, hfault⟩,
    fun b hb => wellFramed_iff_laidOut.mp (hwell b hb), fun bs hbs hlaid => ?_, fun hnone => ?_⟩
  · exact scan_eq_iff.mpr ⟨hbs, fun b hb => wellFramed_iff_laidOut.mpr (hlaid b hb)⟩
  have hscan : scan value = ⟨(scan value).blocks, none⟩ := by rw [← hnone]
  have hvalue := (scan_eq_iff.mp hscan).1
  refine ⟨hvalue.symm, fun doc hdoc => ?_, scan_append hscan⟩
  -- Without a block of the document nothing is taken out.
  have hany : (scan value).blocks.any (·.doc == doc) = false :=
    List.any_eq_false.mpr fun b hb => by simpa using hdoc b hb
  rw [hscan, Framing.without_eq, ← cut_of_scan_eq hscan, cut_eq_self hnone hany, hany]

/-- A block without a body, the number of its document in more bytes than it needs. -/
def wideBlock : Block where
  doc := 1
  order := .ordered
  count := 0
  byteLength := 0
  raw := [0x81, 0, 0, 0, 0, 0, 0, 0]
  body := []

/-- Behind such a block one that ends inside its body is read as if it stood alone, but the fault
names an offset that is counted from the front of both. -/
theorem scan_partitions_wideBlock :
    (Reader.ofValue (wideBlock.raw ++ [5, 1, 1, 4, 0, 0, 0, 9])).answer 1 =
      .error (.bytesMissing 4 15 1) := by
  have hfront : scan wideBlock.raw = ⟨[wideBlock], none⟩ := by
    have hread : read (.ofBytes wideBlock.raw) =
        .ok wideBlock ⟨wideBlock.raw, 8, [], rfl, by decide⟩ := rfl
    rw [scan, scanFrom_of_read hread, scanFrom_of_left_eq_zero rfl]
  have hbehind : scan [5, 1, 1, 4, 0, 0, 0, 9] = ⟨[], some (.bytesMissing 4 7 1)⟩ :=
    scanFrom_of_error (by decide) rfl
  obtain ⟨-, -, -, -, hwhole⟩ := scan_partitions wideBlock.raw
  obtain ⟨-, -, happend⟩ := hwhole (by rw [hfront])
  -- What the reader answers is the list of blocks and then the fault, moved by the length of the
  -- first block.
  obtain ⟨hanswers, -⟩ := scan_partitions (wideBlock.raw ++ [5, 1, 1, 4, 0, 0, 0, 9])
  rw [hanswers 1, happend, hfront, hbehind]
  rfl

end Block

end XmlIndex
