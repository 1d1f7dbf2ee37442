import XmlIndex.Block.Entry
import XmlIndex.Proofs.SegmentReading

/-! # Entries as segments

Node ids, entries and bodies are written as segments that are read back (`NodeId.takes_read`,
`Entry.takes_read?`, `Entry.takes_readAll`), and their readers are local.  How many bytes a node
id takes is counted without writing it (`NodeId.length_encode`).

An entry can be written if its node is a node and the number of its levels fits into a word
(`Entry.Storable`).  Whatever is read as an entry is of that kind. -/

namespace XmlIndex

open Input

/-- A list is no longer than the bytes written for it, if every element takes a byte. -/
theorem length_le_length_flatMap {α : Type} {encode : α → Bytes}
    (hpos : ∀ a, 0 < (encode a).length) (as : List α) :
    as.length ≤ (as.flatMap encode).length := by
  induction as with
  | nil => exact Nat.le_refl _
  | cons a as ih =>
    have hfirst := hpos a
    simp only [List.length_cons, List.flatMap_cons, List.length_append]
    omega

namespace NodeId

/-! ## Node ids -/

/-- Ordinals are read from what is written for them, if none is zero. -/
theorem takes_readLevels {levels : List UInt32} (h : 0 ∉ levels) :
    Takes (readLevels levels.length) (levels.flatMap Varint.encode) levels := by
  induction levels with
  | nil => exact Takes.pure []
  | cons level levels ih =>
    rw [List.mem_cons, not_or] at h
    -- A zero would be refused where it stands.
    have hne : ¬ level = 0 := fun he => h.1 he.symm
    refine (takes_varint level).bind ?_
    simp only [hne, if_false]
    exact (ih h.2).bind_pure (level :: ·)

/-- Reading a number of ordinals is local. -/
theorem isLocal_readLevels (count : Nat) : IsLocal (readLevels count) := by
  induction count with
  | zero => exact IsLocal.pure []
  | succ count ih =>
    refine isLocal_varint.bind fun level => ?_
    by_cases h : level = 0
    · simp only [h, if_true]
      exact (IsLocal.throw .levelZero).bind fun _ => ih.bind fun _ => .pure _
    · simp only [h, if_false]
      exact ih.bind fun levels => .pure (level :: levels)

/-- The ordinals read are as many as asked for, none is zero, and each took a byte. -/
theorem readLevels_eq_ok {count : Nat} {i i' : Input} {levels : List UInt32}
    (h : readLevels count i = .ok levels i') :
    levels.length = count ∧ 0 ∉ levels ∧ i'.left + count ≤ i.left := by
  -- Induction on the ordinals that are still to be read.
  induction count generalizing i levels with
  | zero =>
    obtain ⟨rfl, rfl⟩ := EStateM.Result.ok.inj h
    simp
  | succ count ih =>
    obtain ⟨level, i₁, hv, h⟩ := Action.bind_eq_ok_iff.mp h
    have hbyte := varint_left hv
    by_cases hz : level = 0
    -- An ordinal zero is refused.
    · subst hz
      cases h
    · simp only [hz, if_false] at h
      obtain ⟨rest, i₂, hr, h⟩ := Action.bind_eq_ok_iff.mp h
      obtain ⟨rfl, rfl⟩ := EStateM.Result.ok.inj h
      obtain ⟨hlen, hmem, hleft⟩ := ih hr
      refine ⟨by simp [hlen], ?_, by omega⟩
      rw [List.mem_cons, not_or]
      exact ⟨fun he => hz he.symm, hmem⟩

/-- Where the guard on the count is met, an id is read like its ordinals. -/
theorem takes_readCounted {count : Nat} {bs : Bytes} {levels : List UInt32}
    (h : Takes (readLevels count) bs levels) (hc : count ≤ bs.length) :
    Takes (readCounted count) bs ⟨levels⟩ := by
  intro i rest hr
  obtain ⟨i', hx, hd, hr'⟩ := h.map NodeId.mk i rest hr
  -- The count check passes, as every ordinal takes a byte at least.
  have hleft : ¬ i.left < count := by
    simp only [left, hr, List.length_append]
    omega
  exact ⟨i', by rw [readCounted, if_neg hleft, hx], hd, hr'⟩

/-- An id that was read has passed the guard. -/
theorem readCounted_eq_ok {count : Nat} {i i' : Input} {n : NodeId}
    (h : readCounted count i = .ok n i') : readLevels count i = .ok n.levels i' := by
  rw [readCounted] at h
  split at h
  · cases h
  · obtain ⟨levels, hl, rfl⟩ := Action.map_eq_ok_iff.mp h
    exact hl

/-- Reading an id with a known count is local, for the guard is met again with the same bytes. -/
theorem isLocal_readCounted (count : Nat) : IsLocal (readCounted count) := by
  intro i n i' h
  have hl := readCounted_eq_ok h
  obtain ⟨bs, hr, hd, ht⟩ := isLocal_readLevels count _ _ _ hl
  refine ⟨bs, hr, hd, takes_readCounted ht ?_⟩
  have hcount := (readLevels_eq_ok hl).2.2
  simp only [left, hr, List.length_append] at hcount
  omega

/-- There are no more ordinals than bytes written for them. -/
theorem length_le_length_flatMap_encode (levels : List UInt32) :
    levels.length ≤ (levels.flatMap Varint.encode).length :=
  length_le_length_flatMap Varint.length_encode_pos levels

/-- The length that is foretold for an id is the one that its bytes have. -/
theorem length_encode (n : NodeId) : n.encode.length = n.encodedLength := by
  rw [encode, encodedLength, List.length_append, Varint.length_encode, List.length_flatMap,
    List.sum_eq_foldl]
  simp only [Varint.length_encode]

/-- The closing mark is the id without levels. -/
theorem encode_endOfDocument : endOfDocument.encode = encodeEnd := by
  simp [encode, encodeEnd, endOfDocument]

/-- An id without ordinal zero is read back from its bytes; so is the closing mark. -/
theorem takes_read {n : NodeId} (h0 : 0 ∉ n.levels) (hl : n.levels.length < UInt32.size) :
    Takes read n.encode n := by
  have hcount : (UInt32.ofNat n.levels.length).toNat = n.levels.length := by
    rw [UInt32.toNat_ofNat', Nat.mod_eq_of_lt hl]
  refine (takes_varint _).bind ?_
  rw [hcount]
  exact takes_readCounted (takes_readLevels h0) (length_le_length_flatMap_encode n.levels)

/-- Reading an id is local. -/
theorem isLocal_read : IsLocal read :=
  isLocal_varint.bind fun count => isLocal_readCounted count.toNat

/-- An id that was read has no ordinal zero, and its levels can be counted in a word. -/
theorem read_eq_ok {i i' : Input} {n : NodeId} (h : read i = .ok n i') :
    0 ∉ n.levels ∧ n.levels.length < UInt32.size := by
  obtain ⟨count, i₁, _, h⟩ := Action.bind_eq_ok_iff.mp h
  obtain ⟨hlen, h0, _⟩ := readLevels_eq_ok (readCounted_eq_ok h)
  exact ⟨h0, by rw [hlen]; exact count.toNat_lt⟩

end NodeId

namespace Entry

/-! ## Entries and bodies -/

/-- The entry can be written: its node is one, and the number of its levels fits a word. -/
def Storable (e : Entry) : Prop := e.node.Valid ∧ e.node.levels.length < UInt32.size

/-- An entry that can be written is not taken for the closing mark. -/
theorem Storable.isEnd_eq_false {e : Entry} (h : e.Storable) : e.node.isEnd = false := by
  rw [Bool.eq_false_iff]
  exact fun he => h.1.1 (List.isEmpty_iff.mp he)

/-- An entry is read back from its bytes. -/
theorem takes_read? {e : Entry} (h : e.Storable) : Takes read? e.encode (some e) := by
  refine (NodeId.takes_read h.1.2 h.2).bind ?_
  simp only [h.isEnd_eq_false, Bool.false_eq_true, if_false]
  have hw := takes_fixed64 (Bytes.length_littleEndian 8 e.address.word.toNat)
  have hlt : e.address.word.toNat < Bytes.bound 8 := e.address.word.toNat_lt
  rw [Bytes.ofLittleEndian_littleEndian, Nat.mod_eq_of_lt hlt, UInt64.ofNat_toNat] at hw
  exact hw.bind_pure fun word => some (⟨e.node, ⟨word⟩⟩ : Entry)

/-- The closing mark is read as the end. -/
theorem takes_read?_encodeEnd : Takes read? NodeId.encodeEnd none := by
  rw [← NodeId.encode_endOfDocument, ← List.append_nil NodeId.endOfDocument.encode]
  refine (NodeId.takes_read (by simp [NodeId.endOfDocument]) (by decide)).bind ?_
  exact Takes.pure none

/-- Reading an entry or the closing mark is local. -/
theorem isLocal_read? : IsLocal read? := by
  refine NodeId.isLocal_read.bind fun node => ?_
  cases node.isEnd with
  | true => exact IsLocal.pure none
  | false => exact isLocal_fixed64.bind fun word => .pure (some (⟨node, ⟨word⟩⟩ : Entry))

/-- What is read as an entry can be written. -/
theorem storable_of_read? {i i' : Input} {e : Entry} (h : read? i = .ok (some e) i') :
    e.Storable := by
  obtain ⟨node, i₁, hn, h⟩ := Action.bind_eq_ok_iff.mp h
  obtain ⟨h0, hlen⟩ := NodeId.read_eq_ok hn
  -- The closing mark is not an entry.
  cases hz : node.isEnd with
  | true =>
    simp only [hz, if_true] at h
    cases (EStateM.Result.ok.inj h).1
  | false =>
    simp only [hz] at h
    obtain ⟨word, i₂, _, h⟩ := Action.bind_eq_ok_iff.mp h
    obtain ⟨he, _⟩ := EStateM.Result.ok.inj h
    obtain rfl := Option.some.inj he
    refine ⟨⟨fun hnil => ?_, h0⟩, hlen⟩
    rw [NodeId.isEnd, hnil] at hz
    cases hz

/-- Reading a body is reading its first entry and then the others, or its closing mark. -/
theorem readAll_eq_ok_iff {i i' : Input} {es : List Entry} :
    readAll i = .ok es i' ↔
      (read? i = .ok none i' ∧ es = []) ∨
        ∃ e i₁ rest, read? i = .ok (some e) i₁ ∧ readAll i₁ = .ok rest i' ∧ es = e :: rest := by
  -- The cases of the first entry: it cannot be read, it is the closing mark, or it is an entry.
  rw [readAll]
  split
  · next h => simp [h]
  · next h =>
    simp only [h, EStateM.Result.ok.injEq, true_and, false_and, exists_false, or_false,
      reduceCtorEq]
    exact ⟨fun h => ⟨h.2, h.1.symm⟩, fun h => ⟨h.2.symm, h.1⟩⟩
  · next e i₁ h =>
    simp only [h]
    split
    · next hr => simp [hr]
    · next hr =>
      simp only [EStateM.Result.ok.injEq, Option.some.injEq, reduceCtorEq, false_and, false_or]
      constructor
      · rintro ⟨rfl, rfl⟩
        exact ⟨_, _, _, ⟨rfl, rfl⟩, hr, rfl⟩
      · rintro ⟨_, _, _, ⟨rfl, rfl⟩, hr', rfl⟩
        -- Reading is a function, so the two readings of the rest are one.
        rw [hr] at hr'
        obtain ⟨rfl, rfl⟩ := EStateM.Result.ok.inj hr'
        exact ⟨rfl, rfl⟩

/-- A body without entries is its closing mark. -/
theorem readAll_eq_ok_nil_iff {i i' : Input} : readAll i = .ok [] i' ↔ read? i = .ok none i' := by
  rw [readAll_eq_ok_iff]
  simp

/-- A body with entries is the first of them and a body. -/
theorem readAll_eq_ok_cons_iff {i i' : Input} {e : Entry} {es : List Entry} :
    readAll i = .ok (e :: es) i' ↔
      ∃ i₁, read? i = .ok (some e) i₁ ∧ readAll i₁ = .ok es i' := by
  rw [readAll_eq_ok_iff]
  constructor
  · rintro (⟨-, hes⟩ | ⟨e', i₁, rest, hx, hx', hes⟩)
    · cases hes
    · obtain ⟨rfl, rfl⟩ := List.cons.inj hes
      exact ⟨i₁, hx, hx'⟩
  · rintro ⟨i₁, hx, hx'⟩
    exact .inr ⟨e, i₁, es, hx, hx', rfl⟩

/-- A body fails at the first entry that cannot be read. -/
theorem readAll_eq_error_iff {i i' : Input} {e : Error} :
    readAll i = .error e i' ↔ read? i = .error e i' ∨
      ∃ entry i₁, read? i = .ok (some entry) i₁ ∧ readAll i₁ = .error e i' := by
  rw [readAll]
  split
  · next h => simp [h]
  · next h => simp [h]
  · next entry i₁ h =>
    simp only [h, EStateM.Result.ok.injEq, Option.some.injEq, reduceCtorEq, false_or]
    split
    -- Behind the first entry the body fails as its rest does.
    · next hr =>
      constructor
      · intro hfails
        exact ⟨entry, i₁, ⟨rfl, rfl⟩, hr.trans hfails⟩
      · rintro ⟨_, _, ⟨rfl, rfl⟩, hfails⟩
        exact hr.symm.trans hfails
    · next hr =>
      simp only [reduceCtorEq, false_iff]
      rintro ⟨_, _, ⟨rfl, rfl⟩, hfails⟩
      cases hr.symm.trans hfails

/-- The closing mark alone is a body. -/
theorem takes_readAll_nil {bs : Bytes} (h : Takes read? bs none) : Takes readAll bs [] := by
  intro i rest hr
  obtain ⟨i', hx, hd, hr'⟩ := h i rest hr
  exact ⟨i', readAll_eq_ok_nil_iff.mpr hx, hd, hr'⟩

/-- An entry in front of a body makes a body. -/
theorem takes_readAll_cons {bs cs : Bytes} {e : Entry} {es : List Entry}
    (hfirst : Takes read? bs (some e)) (hothers : Takes readAll cs es) :
    Takes readAll (bs ++ cs) (e :: es) := by
  intro i rest hr
  rw [List.append_assoc] at hr
  obtain ⟨i₁, hx, hd, hr₁⟩ := hfirst i _ hr
  obtain ⟨i', hx', hd', hr'⟩ := hothers i₁ rest hr₁
  exact ⟨i', readAll_eq_ok_cons_iff.mpr ⟨i₁, hx, hx'⟩, hd'.trans hd, hr'⟩

/-- A body is read back as the list it was written from. -/
theorem takes_readAll {es : List Entry} (h : ∀ e ∈ es, e.Storable) :
    Takes readAll (encodeBody es) es := by
  induction es with
  | nil => exact takes_readAll_nil takes_read?_encodeEnd
  | cons e es ih =>
    obtain ⟨hfirst, hothers⟩ := List.forall_mem_cons.mp h
    have hcons : encodeBody (e :: es) = e.encode ++ encodeBody es := by
      simp [encodeBody, List.append_assoc]
    rw [hcons]
    exact takes_readAll_cons (takes_read? hfirst) (ih hothers)

/-- Reading a body is local. -/
theorem isLocal_readAll : IsLocal readAll := by
  intro i es i' h
  -- Induction on the entries that were read, each of them from its own bytes.
  induction es generalizing i with
  | nil =>
    obtain ⟨bs, hr, hd, ht⟩ := isLocal_read? _ _ _ (readAll_eq_ok_nil_iff.mp h)
    exact ⟨bs, hr, hd, takes_readAll_nil ht⟩
  | cons e es ih =>
    obtain ⟨i₁, hx, hx'⟩ := readAll_eq_ok_cons_iff.mp h
    obtain ⟨bs, hr, hd, ht⟩ := isLocal_read? _ _ _ hx
    obtain ⟨cs, hr', hd', ht'⟩ := ih i₁ hx'
    exact ⟨bs ++ cs, by rw [hr, hr', List.append_assoc], hd'.trans hd, takes_readAll_cons ht ht'⟩

/-- Whatever is read as a body can be written again. -/
theorem storable_of_readAll {i i' : Input} {es : List Entry} (h : readAll i = .ok es i') :
    ∀ e ∈ es, e.Storable := by
  induction es generalizing i with
  | nil => simp
  | cons e es ih =>
    obtain ⟨i₁, hx, hx'⟩ := readAll_eq_ok_cons_iff.mp h
    exact List.forall_mem_cons.mpr ⟨storable_of_read? hx, ih hx'⟩

/-- Every entry took a byte, and so did the closing mark. -/
theorem length_lt_of_readAll {i i' : Input} {es : List Entry} (h : readAll i = .ok es i') :
    i'.left + es.length < i.left := by
  induction es generalizing i with
  | nil => exact read?_left (readAll_eq_ok_nil_iff.mp h)
  | cons e es ih =>
    obtain ⟨i₁, hx, hx'⟩ := readAll_eq_ok_cons_iff.mp h
    -- The first entry takes a byte at least, and so does each of the others.
    have hfirst := read?_left hx
    have hothers := ih hx'
    rw [List.length_cons]
    omega

end Entry

end XmlIndex
