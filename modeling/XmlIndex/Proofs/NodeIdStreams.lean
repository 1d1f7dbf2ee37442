import XmlIndex.Proofs.EntryReading

/-! # Streams of node ids

Node ids are written one after another, with the closing mark behind them.  Read one after another
they come back, and then the mark, whatever bytes follow it (`NodeId.streams_are_read_back`).  A
read moves over as many bytes as the id takes by its own account.

Nothing in this is about node ids.  It holds of every reader that takes the bytes of a value
wherever they stand (`Input.inTurn_of_takes`). -/

namespace XmlIndex

namespace Input

/-! ## Reading again and again -/

variable {α : Type} {i : Input} {rest : Bytes}

/-- What a reader answers `count` times in a row, and how far it moves each time. -/
def inTurn (x : Reads α) : (count : Nat) → Input → List (Except Error α × Nat)
  | 0, _ => []
  | count + 1, i =>
    let i' := Action.stateOf (x i)
    (Action.outcomeOf (x i), i'.pos - i.pos) :: inTurn x count i'

/-- Values that are written one after another are read one after another, each in its place. -/
theorem inTurn_of_takes {x : Reads α} {encode : α → Bytes} {as : List α}
    (h : ∀ a ∈ as, Takes x (encode a) a) (hr : i.rest = as.flatMap encode ++ rest) :
    inTurn x as.length i = as.map fun a => (.ok a, (encode a).length) := by
  -- Induction on the values, as every read leaves the input at the bytes of the others.
  induction as generalizing i with
  | nil => rfl
  | cons a as ih =>
    obtain ⟨hfirst, hothers⟩ := List.forall_mem_cons.mp h
    rw [List.flatMap_cons, List.append_assoc] at hr
    obtain ⟨i', hx, hd, hr'⟩ := hfirst i _ hr
    have hpos : i'.pos = i.pos + (encode a).length := pos_of_rest hd (by rw [hr, hr'])
    simp only [List.length_cons, inTurn, hx, Action.outcomeOf, Action.stateOf, List.map_cons,
      ih hothers hr', hpos, Nat.add_sub_cancel_left]

end Input

namespace NodeId

/-! ## Ids one after another -/

/-- Every level takes a byte, so behind their number there are as many bytes at least. -/
theorem count_le_left (n : NodeId) {i : Input} {rest : Bytes} (hr : i.rest = n.encode ++ rest) :
    ∃ i', Input.varint i = .ok (UInt32.ofNat n.levels.length) i' ∧ n.levels.length ≤ i'.left := by
  rw [encode, List.append_assoc] at hr
  obtain ⟨i', hcount, -, hr'⟩ := Input.takes_varint _ i _ hr
  refine ⟨i', hcount, ?_⟩
  have hbytes := length_le_length_flatMap_encode n.levels
  rw [Input.left, hr', List.length_append]
  omega

/-- Node ids that are written one after another, with the closing mark behind them, are read one
after another, and then the mark.  Every read succeeds and moves over what the id takes by its own
account, and over one byte for the mark.  In particular no id is refused because too few bytes are
left for its levels.

A number is read back too, whatever follows it, and its length is what it takes by its own account.

Whatever the bytes are, no id that is read has a level zero. -/
theorem streams_are_read_back :
    (∀ (ids : List NodeId) (rest : Bytes) (i : Input),
      (∀ n ∈ ids, n.Valid ∧ n.levels.length < UInt32.size) →
      i.rest = ids.flatMap encode ++ (encodeEnd ++ rest) →
        Input.inTurn read (ids.length + 1) i =
          (ids.map fun n => (.ok n, n.encodedLength)) ++ [(.ok endOfDocument, 1)]) ∧
    (∀ (n : NodeId) (rest : Bytes) (i : Input), i.rest = n.encode ++ rest →
      ∃ i', Input.varint i = .ok (UInt32.ofNat n.levels.length) i' ∧
        n.levels.length ≤ i'.left) ∧
    (∀ (v : UInt32) (rest : Bytes),
      Varint.decode (Varint.encode v ++ rest) = .ok (v, Varint.length v) ∧
        (Varint.encode v).length = Varint.length v) ∧
    ∀ (i i' : Input) (n : NodeId), read i = .ok n i' → ∀ level ∈ n.levels, 0 < level := by
  refine ⟨fun ids rest i hids hr => ?_, fun n rest i hr => n.count_le_left hr,
    fun v rest => ?_, fun i i' n h level hlevel => ?_⟩
  · -- The mark is written as an id without levels, and read back like the others.
    have htakes : ∀ n ∈ ids ++ [endOfDocument], Input.Takes read n.encode n := by
      intro n hn
      rcases List.mem_append.mp hn with hn | hn
      · exact takes_read (hids n hn).1.2 (hids n hn).2
      · obtain rfl := List.mem_singleton.mp hn
        exact takes_read List.not_mem_nil (by decide)
    have hr' : i.rest = (ids ++ [endOfDocument]).flatMap encode ++ rest := by
      simp [hr, encode_endOfDocument]
    have hturn := Input.inTurn_of_takes htakes hr'
    simp only [length_encode] at hturn
    rw [List.length_append, List.map_append] at hturn
    exact hturn
  · rw [← Varint.length_encode]
    exact ⟨Varint.decode_encode v rest, rfl⟩
  · refine UInt32.pos_iff_ne_zero.mpr fun hzero => ?_
    exact (read_eq_ok h).1 (hzero ▸ hlevel)

/-- Two ids, the mark and a byte behind it. -/
theorem streams_are_read_back_two :
    (∀ n ∈ ([⟨[1, 200, 3]⟩, ⟨[1]⟩] : List NodeId), n.Valid ∧ n.levels.length < UInt32.size) ∧
      Input.inTurn read 3 (.ofBytes [3, 1, 200, 1, 3, 1, 1, 0, 9]) =
        [(.ok ⟨[1, 200, 3]⟩, 5), (.ok ⟨[1]⟩, 2), (.ok ⟨[]⟩, 1)] := by
  have hids : ∀ n ∈ ([⟨[1, 200, 3]⟩, ⟨[1]⟩] : List NodeId),
      n.Valid ∧ n.levels.length < UInt32.size := by decide
  refine ⟨hids, streams_are_read_back.1 _ [9] _ hids ?_⟩
  simp [Input.ofBytes, encode, encodeEnd, Varint.encode, Varint.encodeNat]

end NodeId

end XmlIndex
