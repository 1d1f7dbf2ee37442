import XmlIndex.Proofs.ChecksumChanges
import XmlIndex.Proofs.SnapshotRoundTrip

/-! # Damaged snapshots are refused

A snapshot is damaged by a change of one of its bytes or by the loss of its end
(`Snapshot.Damaged`).  The checksum is that of the payload only, so the length in front of it
has to be looked at by itself: one that is too large points behind the end of the file, and one
that is too small leaves a part of the payload, which cannot be decoded even if its checksum
happens to be the same (`Snapshot.decode_of_length_ne`).

A snapshot of less than `2 ^ 56` bytes has a zero as the highest byte of its length, so one changed
byte leaves the length small enough for the sum with the header to be a word
(`Snapshot.header_add_lt_of_set`), and the program does not stop at it. -/

namespace XmlIndex

namespace Bytes

theorem ofLittleEndian_inj {bs bs' : Bytes} (hlength : bs.length = bs'.length)
    (h : ofLittleEndian bs = ofLittleEndian bs') : bs = bs' := by
  induction bs generalizing bs' with
  | nil => exact (List.length_eq_zero_iff.mp hlength.symm).symm
  | cons b bs ih =>
    cases bs' with
    | nil => cases hlength
    | cons b' bs' =>
      have hb := b.toNat_lt
      have hb' := b'.toNat_lt
      simp only [ofLittleEndian] at h
      -- The first byte is the remainder by 256, and the others are the quotient.
      have hfirst : b = b' := UInt8.toNat_inj.mp (by omega)
      rw [hfirst, ih (Nat.succ.inj hlength) (by omega)]

/-- A number that is small enough for fewer bytes has a zero behind them. -/
theorem littleEndian_succ_of_lt {width n : Nat} (h : n < bound width) :
    littleEndian (width + 1) n = littleEndian width n ++ [0] := by
  induction width generalizing n with
  | zero =>
    obtain rfl := Nat.lt_one_iff.mp h
    rfl
  | succ width ih =>
    have hrest : n / 256 < bound width := Nat.div_lt_of_lt_mul h
    rw [littleEndian, ih hrest]
    rfl

/-- A highest byte counts as often as there are numbers of the bytes in front of it. -/
theorem ofLittleEndian_concat (bs : Bytes) (b : UInt8) :
    ofLittleEndian (bs ++ [b]) = ofLittleEndian bs + bound bs.length * b.toNat := by
  induction bs with
  | nil => simp [ofLittleEndian, bound]
  | cons first bs ih =>
    simp only [List.cons_append, ofLittleEndian, ih, List.length_cons, bound, Nat.mul_add,
      Nat.mul_assoc, Nat.add_assoc]

end Bytes

namespace Snapshot

variable {payload : Bytes} {pairs : List (Bytes × Bytes)} {path : String}

/-- One byte of the file is changed, or its end is cut off. -/
inductive Damaged (file : Bytes) : Bytes → Prop
  | changed {i : Nat} {b : UInt8} (hi : i < file.length) (hb : b ≠ file[i]) :
    Damaged file (file.set i b)
  | cut {n : Nat} (hn : n < file.length) : Damaged file (file.take n)

theorem decode_of_unpack_error {file : Bytes} {e : Error} (h : unpack path file = .error e) :
    decode path file = .error e := by
  rw [decode, h]
  rfl

theorem isLocal_payload : Wire.IsLocal (Wire.list pair) :=
  Wire.isLocal_list (Wire.isLocal_bytes.bind fun _ =>
    Wire.isLocal_bytes.bind fun _ => Wire.isLocal_pure _)

/-! ## The parts of a damaged file -/

/-- Another checksum in front is found out. -/
theorem unpack_of_checksum_ne (h : headerLength + payload.length < Bytes.bound 8)
    {checksum : Bytes} (hchecksum : checksum.length = 4)
    (hne : checksum ≠ Bytes.littleEndian 4 (Checksum.crc32 payload).toNat) :
    unpack path (checksum ++ (Bytes.littleEndian 8 payload.length ++ payload)) =
      .error (.snapshotChecksum path) := by
  rw [unpack_append hchecksum (Bytes.length_littleEndian ..), ofLittleEndian_length (by omega),
    if_pos h, if_pos (Nat.le_refl _), List.take_length, if_neg]
  intro heq
  rw [← ofLittleEndian_checksum] at heq
  exact hne (Bytes.ofLittleEndian_inj (by rw [hchecksum, Bytes.length_littleEndian]) heq.symm)

/-- A length with one changed byte leaves the position behind the payload a word. -/
theorem header_add_lt_of_set {length : Nat} (h : headerLength + length < Bytes.bound 7) (i : Nat)
    (b : UInt8) : headerLength +
      Bytes.ofLittleEndian ((Bytes.littleEndian 8 length).set i b) < Bytes.bound 8 := by
  have hb := b.toNat_lt
  have hheader : headerLength = 12 := rfl
  have hseven : Bytes.bound 7 = 2 ^ 56 := rfl
  have hlength : length < Bytes.bound 7 := Nat.lt_of_le_of_lt (Nat.le_add_left ..) h
  -- Below this bound the highest of the eight bytes is zero.
  rw [Bytes.littleEndian_succ_of_lt hlength, List.set_append, show Bytes.bound 8 = 2 ^ 64 from rfl]
  split
  · -- The highest byte is zero still.
    have hfront := Bytes.ofLittleEndian_lt ((Bytes.littleEndian 7 length).set i b)
    rw [List.length_set, Bytes.length_littleEndian] at hfront
    rw [Bytes.ofLittleEndian_concat, show (0 : UInt8).toNat = 0 from rfl]
    omega
  · -- The other bytes are those of the length.
    have hfront : Bytes.ofLittleEndian (Bytes.littleEndian 7 length) = length := by
      rw [Bytes.ofLittleEndian_littleEndian]
      exact Nat.mod_eq_of_lt hlength
    rw [Bytes.length_littleEndian]
    cases i - 7 with
    | zero =>
      rw [List.set_cons_zero, Bytes.ofLittleEndian_concat, hfront, Bytes.length_littleEndian,
        hseven]
      omega
    | succ j =>
      rw [List.set_cons_succ, List.set_nil, Bytes.ofLittleEndian_concat, hfront,
        show (0 : UInt8).toNat = 0 from rfl]
      omega

/-- Another length is found out, at the latest when the payload ends early. -/
theorem decode_of_length_ne (h : (encodePayload pairs).length < Bytes.bound 8)
    {checksum length : Bytes} (hchecksum : checksum.length = 4) (hlength : length.length = 8)
    (hword : headerLength + Bytes.ofLittleEndian length < Bytes.bound 8)
    (hne : length ≠ Bytes.littleEndian 8 (encodePayload pairs).length) :
    ∃ e, e.kind ≠ .stopped ∧
      decode path (checksum ++ (length ++ encodePayload pairs)) = .error e := by
  have hother : Bytes.ofLittleEndian length ≠ (encodePayload pairs).length := fun heq => by
    rw [← ofLittleEndian_length h] at heq
    exact hne (Bytes.ofLittleEndian_inj (by rw [hlength, Bytes.length_littleEndian]) heq)
  have hunpack := unpack_append hchecksum hlength path (encodePayload pairs)
  rw [if_pos hword] at hunpack
  split at hunpack
  · next hfits =>
    split at hunpack
    -- The part of the payload has the right checksum by chance, but it ends early.
    · have hcut := (takes_payload (fits_of_length h)).eq_none_of_cut isLocal_payload
        (n := Bytes.ofLittleEndian length) (by omega)
      exact ⟨.undecodable, by simp [Error.kind], by rw [decode_of_unpack hunpack, hcut]⟩
    · exact ⟨.snapshotChecksum path, by simp [Error.kind], decode_of_unpack_error hunpack⟩
  · exact ⟨.snapshotCut path, by simp [Error.kind], decode_of_unpack_error hunpack⟩

/-- A payload with another checksum is found out. -/
theorem unpack_of_crc32_ne (h : headerLength + payload.length < Bytes.bound 8)
    {damaged : Bytes} (hlength : damaged.length = payload.length)
    (hne : Checksum.crc32 damaged ≠ Checksum.crc32 payload) :
    unpack path (Bytes.littleEndian 4 (Checksum.crc32 payload).toNat ++
      (Bytes.littleEndian 8 payload.length ++ damaged)) = .error (.snapshotChecksum path) := by
  rw [unpack_append (Bytes.length_littleEndian ..) (Bytes.length_littleEndian ..),
    ofLittleEndian_length (by omega), if_pos h, if_pos (Nat.le_of_eq hlength.symm), ← hlength,
    List.take_length, ofLittleEndian_checksum, if_neg]
  exact fun heq => hne (BitVec.eq_of_toNat_eq heq)

/-- A file without its end is found out by its length. -/
theorem unpack_of_cut (h : headerLength + payload.length < Bytes.bound 8) (path : String) {n : Nat}
    (hn : n < (pack payload).length) :
    ∃ e, e.kind ≠ .stopped ∧ unpack path ((pack payload).take n) = .error e := by
  rw [length_pack] at hn
  -- The cut may lie within the header or behind it.
  by_cases hshort : n < headerLength
  · refine ⟨.snapshotShort path, by simp [Error.kind], ?_⟩
    rw [unpack, if_pos (by rw [List.length_take]; omega)]
  · obtain ⟨left, rfl⟩ := Nat.exists_eq_add_of_le (Nat.le_of_not_lt hshort)
    have htake : (pack payload).take (headerLength + left) =
        Bytes.littleEndian 4 (Checksum.crc32 payload).toNat ++
          (Bytes.littleEndian 8 payload.length ++ payload.take left) := by
      have hheader : (Bytes.littleEndian 4 (Checksum.crc32 payload).toNat ++
          Bytes.littleEndian 8 payload.length).length = headerLength := by
        rw [List.length_append, Bytes.length_littleEndian, Bytes.length_littleEndian, headerLength]
      rw [pack, ← List.append_assoc, ← hheader]
      exact List.take_length_add_append left
    refine ⟨.snapshotCut path, by simp [Error.kind], ?_⟩
    rw [htake, unpack_append (Bytes.length_littleEndian ..) (Bytes.length_littleEndian ..),
      ofLittleEndian_length (by omega), if_pos h, if_neg]
    rw [List.length_take]
    omega

/-! ## Damage anywhere -/

theorem set_ne {α : Type} {l : List α} {i : Nat} {a : α} (hi : i < l.length) (ha : a ≠ l[i]) :
    l.set i a ≠ l := fun h => by
  have hi' : i < (l.set i a).length := by rwa [List.length_set]
  exact ha ((List.getElem_set_self hi').symm.trans (List.getElem_of_eq h hi'))

/-- A damaged file holds nothing that can be read. -/
theorem decode_of_damaged {file : Bytes}
    (h : headerLength + (encodePayload pairs).length < Bytes.bound 7)
    (hdamaged : Damaged (encode pairs) file) (path : String) :
    ∃ e, e.kind ≠ .stopped ∧ decode path file = .error e := by
  have hword : headerLength + (encodePayload pairs).length < Bytes.bound 8 :=
    Nat.lt_trans h (by decide)
  cases hdamaged with
  | cut hn =>
    -- A shorter file is noticed before anything is decoded.
    obtain ⟨e, hanswered, he⟩ := unpack_of_cut hword path hn
    exact ⟨e, hanswered, decode_of_unpack_error he⟩
  | @changed i b hi hb =>
    have hne := set_ne hi hb
    rw [encode, pack_eq] at hne ⊢
    rw [List.set_append] at hne ⊢
    -- The byte stands in the checksum, in the length or in the payload.
    split at hne
    · next hchecksum =>
      rw [if_pos hchecksum]
      refine ⟨.snapshotChecksum path, by simp [Error.kind],
        decode_of_unpack_error (unpack_of_checksum_ne hword ?_ fun heq => hne ?_)⟩
      · rw [List.length_set, Bytes.length_littleEndian]
      · rw [heq]
    · next hchecksum =>
      rw [if_neg hchecksum]
      rw [List.set_append] at hne ⊢
      split at hne
      · next hlength =>
        rw [if_pos hlength]
        refine decode_of_length_ne (by omega) (Bytes.length_littleEndian ..) ?_
          (header_add_lt_of_set h _ b) fun heq => hne ?_
        · rw [List.length_set, Bytes.length_littleEndian]
        · rw [heq]
      · next hlength =>
        rw [if_neg hlength]
        refine ⟨.snapshotChecksum path, by simp [Error.kind], decode_of_unpack_error
          (unpack_of_crc32_ne hword ?_ (Checksum.crc32_set_ne fun heq => hne ?_))⟩
        · rw [List.length_set]
        · rw [heq]

end Snapshot

namespace Store

/-- A damaged snapshot is never loaded: the caller gets an error as the answer, and the store stays
as it was.  The snapshot is shorter than `2 ^ 56` bytes, so that no length that is read, with the
header added, is more than a word. -/
theorem load_damaged_snapshot {s : Store} (h : s.snapshot.length < Bytes.bound 7) {file : Bytes}
    (hdamaged : Snapshot.Damaged s.snapshot file) (path : String) (t : Store) :
    ∃ e, e.kind ≠ .stopped ∧ load path (some file) t = .error e t := by
  rw [length_snapshot] at h
  obtain ⟨e, hanswered, he⟩ := Snapshot.decode_of_damaged h hdamaged path
  exact ⟨e, hanswered, Action.bind_of_error (by rw [he]; rfl)⟩

/-- The payload has 26 bytes here, and the length in front of it shrinks to 25. -/
theorem load_damaged_snapshot_shrunkenLength :
    let s : Store := Store.place { name := "x", timeout := ⟨0⟩ } [1] [5]
    s.snapshot[4]? = some 26 ∧
      ∃ e, e.kind ≠ .stopped ∧ load "x.snapshot" (some (s.snapshot.set 4 25)) s = .error e s := by
  intro s
  exact ⟨by decide, load_damaged_snapshot (by decide) (.changed (by decide) (by decide)) _ _⟩

end Store

end XmlIndex
