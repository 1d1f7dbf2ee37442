import XmlIndex.Proofs.SnapshotDamage

/-! # Files from anywhere

A file that is loaded need not be a snapshot.  Its payload is taken only if it lies within the
file, has the length and the checksum in front of it (`Snapshot.Accepted`), and can be decoded;
else nothing of the store changes (`Store.load_accepts_iff`).

The length in front may be any word, and the position behind the payload is computed from it before
anything is checked.  Where that sum is no word, which takes a length among the twelve largest,
there is no answer: the program stops (`Store.load_stops_iff`). -/

namespace XmlIndex

namespace Snapshot

variable {path : String} {file payload : Bytes} {pairs : List (Bytes × Bytes)}

/-- The payload of a file lies within the file behind the header, and has the length and the
checksum that are declared. -/
structure Accepted (file payload : Bytes) : Prop where
  header : headerLength ≤ file.length
  word : headerLength + (declaredLength file).toNat < UInt64.size
  within : headerLength + (declaredLength file).toNat ≤ file.length
  taken : payload = (file.drop headerLength).take (declaredLength file).toNat
  length : payload.length = (declaredLength file).toNat
  checksum : (Checksum.crc32 payload).toNat = checksum file

/-- A payload is unpacked exactly if it is accepted. -/
theorem unpack_eq_ok_iff : unpack path file = .ok payload ↔ Accepted file payload := by
  by_cases hheader : headerLength ≤ file.length
  · rw [unpack_of_header hheader]
    constructor
    · intro h
      -- Of the four ways through, three end in an error.
      split at h
      · next hword =>
        split at h
        · next hwithin =>
          dsimp only at h
          split at h
          · next hchecksum =>
            obtain rfl := Except.ok.inj h
            refine ⟨hheader, hword, hwithin, rfl, ?_, hchecksum⟩
            rw [List.length_take, List.length_drop]
            omega
          · cases h
        · cases h
      · cases h
    · rintro ⟨_, hword, hwithin, rfl, _, hchecksum⟩
      rw [if_pos hword, if_pos hwithin]
      exact if_pos hchecksum
  · rw [unpack, if_pos (Nat.lt_of_not_le hheader)]
    refine iff_of_false (fun h => ?_) fun h => hheader h.header
    cases h

/-- A file is decoded exactly if its payload is accepted and can be read. -/
theorem decode_eq_ok_iff : decode path file = .ok pairs ↔
    ∃ payload rest, Accepted file payload ∧ Wire.list pair payload = some (pairs, rest) := by
  constructor
  · intro h
    -- What cannot be unpacked is not decoded.
    cases hunpack : unpack path file with
    | error e =>
      rw [decode_of_unpack_error hunpack] at h
      cases h
    | ok payload =>
      rw [decode_of_unpack hunpack] at h
      split at h
      · next hread =>
        obtain rfl := Except.ok.inj h
        exact ⟨payload, _, unpack_eq_ok_iff.mp hunpack, hread⟩
      · cases h
  · rintro ⟨payload, rest, haccepted, hread⟩
    rw [decode_of_unpack (unpack_eq_ok_iff.mpr haccepted), hread]

/-- A file has a header, and the payload it declares ends behind the last position there is. -/
structure Overflows (file : Bytes) : Prop where
  header : headerLength ≤ file.length
  size_le : UInt64.size ≤ headerLength + (declaredLength file).toNat

instance (file : Bytes) : Decidable (Overflows file) :=
  decidable_of_iff (headerLength ≤ file.length ∧
      UInt64.size ≤ headerLength + (declaredLength file).toNat)
    ⟨fun h => ⟨h.1, h.2⟩, fun h => ⟨h.header, h.size_le⟩⟩

/-- Whether the program stops at a file is settled by header and length alone. -/
theorem unpack_stops_iff {e : Error} (h : unpack path file = .error e) :
    e.kind = .stopped ↔ Overflows file := by
  by_cases hheader : headerLength ≤ file.length
  · rw [unpack_of_header hheader] at h
    by_cases hword : headerLength + (declaredLength file).toNat < UInt64.size
    · -- There is a sum, and each of the two errors that are left is answered.
      refine iff_of_false ?_ fun hover => absurd hword (Nat.not_lt_of_le hover.size_le)
      rw [if_pos hword] at h
      split at h
      · dsimp only at h
        split at h
        · cases h
        · obtain rfl := Except.error.inj h
          simp [Error.kind]
      · obtain rfl := Except.error.inj h
        simp [Error.kind]
    -- The sum does not fit into a word, which is what stops the program.
    · rw [if_neg hword] at h
      obtain rfl := Except.error.inj h
      exact iff_of_true rfl ⟨hheader, Nat.le_of_not_lt hword⟩
  · rw [unpack, if_pos (Nat.lt_of_not_le hheader)] at h
    obtain rfl := Except.error.inj h
    exact iff_of_false (by simp [Error.kind]) fun hover => hheader hover.header

/-- The program stops while it unpacks, or not at all. -/
theorem decode_stops_iff {e : Error} (h : decode path file = .error e) :
    e.kind = .stopped ↔ Overflows file := by
  cases hunpack : unpack path file with
  | error e' =>
    rw [decode_of_unpack_error hunpack] at h
    obtain rfl := Except.error.inj h
    exact unpack_stops_iff hunpack
  | ok payload =>
    -- A payload that was taken has an end, so the one error that is left is answered.
    have haccepted := unpack_eq_ok_iff.mp hunpack
    refine iff_of_false ?_ fun hover => absurd haccepted.word (Nat.not_lt_of_le hover.size_le)
    rw [decode_of_unpack hunpack] at h
    split at h
    · cases h
    · obtain rfl := Except.error.inj h
      simp [Error.kind]

end Snapshot

namespace Store

variable {path : String} {file : Bytes} {t u : Store} {e : Error}

/-- A file that is loaded is decoded, and its pairs replace what was there. -/
theorem load_eq_ok_iff : load path (some file) t = .ok () u ↔
    ∃ pairs, Snapshot.decode path file = .ok pairs ∧ u = t.refill pairs := by
  constructor
  · intro h
    obtain ⟨pairs, v, hparse, hrefill⟩ := Action.bind_eq_ok_iff.mp h
    obtain ⟨hdecode, rfl⟩ := Action.ofExcept_eq_ok_iff.mp hparse
    obtain ⟨_, rfl⟩ := EStateM.Result.ok.inj hrefill
    exact ⟨pairs, hdecode, rfl⟩
  · rintro ⟨pairs, hdecode, rfl⟩
    exact load_of_decode hdecode t

/-- A file that cannot be decoded leaves the store. -/
theorem load_eq_error_iff : load path (some file) t = .error e u ↔
    Snapshot.decode path file = .error e ∧ u = t := by
  constructor
  · intro h
    rcases Action.bind_eq_error_iff.mp h with h | ⟨_, _, _, h⟩
    · exact Action.ofExcept_eq_error_iff.mp h
    · cases h
  · rintro ⟨hdecode, rfl⟩
    exact Action.bind_of_error (Action.ofExcept_eq_error_iff.mpr ⟨hdecode, rfl⟩)

/-- The program stops at a file exactly if the payload it declares would end behind the last
position. -/
theorem load_stops_iff :
    (∃ e u, load path (some file) t = .error e u ∧ e.kind = .stopped) ↔
      Snapshot.Overflows file := by
  constructor
  · rintro ⟨e, u, h, hkind⟩
    exact (Snapshot.decode_stops_iff (load_eq_error_iff.mp h).1).mp hkind
  · intro hover
    -- A file that is decoded has a payload that is accepted, which ends at a position there is.
    cases hdecode : Snapshot.decode path file with
    | error e =>
      exact ⟨e, t, load_eq_error_iff.mpr ⟨hdecode, rfl⟩,
        (Snapshot.decode_stops_iff hdecode).mpr hover⟩
    | ok pairs =>
      obtain ⟨payload, rest, haccepted, -⟩ := Snapshot.decode_eq_ok_iff.mp hdecode
      exact absurd haccepted.word (Nat.not_lt_of_le hover.size_le)

/-- A file of any bytes is loaded exactly if its payload is accepted and can be decoded.  Else the
store stays as it was, and the caller gets an error as the answer, unless the payload would end
behind the last position there is, where the program stops. -/
theorem load_accepts_iff (path : String) (file : Bytes) (t : Store) :
    (∀ u, load path (some file) t = .ok () u ↔ ∃ payload pairs rest,
      Snapshot.Accepted file payload ∧ Wire.list Snapshot.pair payload = some (pairs, rest) ∧
        u = t.refill pairs) ∧
      (∀ e u, load path (some file) t = .error e u →
        u = t ∧ (e.kind = .stopped ↔ Snapshot.Overflows file)) ∧
      ((∃ e u, load path (some file) t = .error e u ∧ e.kind = .stopped) ↔
        Snapshot.Overflows file) := by
  refine ⟨fun u => ?_, fun e u h => ?_, load_stops_iff⟩
  · rw [load_eq_ok_iff]
    constructor
    · rintro ⟨pairs, hdecode, hstate⟩
      obtain ⟨payload, rest, haccepted, hread⟩ := Snapshot.decode_eq_ok_iff.mp hdecode
      exact ⟨payload, pairs, rest, haccepted, hread, hstate⟩
    · rintro ⟨payload, pairs, rest, haccepted, hread, hstate⟩
      exact ⟨pairs, Snapshot.decode_eq_ok_iff.mpr ⟨payload, rest, haccepted, hread⟩, hstate⟩
  · obtain ⟨hdecode, hstate⟩ := load_eq_error_iff.mp h
    exact ⟨hstate, Snapshot.decode_stops_iff hdecode⟩

/-- A header alone, which declares a length of `2 ^ 64 - 13`, so that the payload would end at the
last position. -/
def largestHeader : Bytes := [0, 0, 0, 0, 0xF3, 0xFF, 0xFF, 0xFF, 0xFF, 0xFF, 0xFF, 0xFF]

/-- The same header with a length that is larger by one. -/
def overflowingHeader : Bytes := [0, 0, 0, 0, 0xF4, 0xFF, 0xFF, 0xFF, 0xFF, 0xFF, 0xFF, 0xFF]

/-- The largest length that has an end is refused with an answer, and the next one stops the
program; the store is the same after both. -/
theorem load_largestHeader :
    let t : Store := Store.place { name := "x", timeout := ⟨0⟩ } [1] [5]
    (∃ e u, load "x.snapshot" (some largestHeader) t = .error e u ∧ e.kind ≠ .stopped ∧ u = t) ∧
      ∃ e u, load "x.snapshot" (some overflowingHeader) t = .error e u ∧ e.kind = .stopped ∧
        u = t := by
  intro t
  obtain ⟨hok, herror, -⟩ := load_accepts_iff "x.snapshot" largestHeader t
  obtain ⟨-, herror', hstops⟩ := load_accepts_iff "x.snapshot" overflowingHeader t
  -- The sum for the first header is the last word there is, and the next one is none.
  constructor
  · cases hload : load "x.snapshot" (some largestHeader) t with
    | ok _ u =>
      obtain ⟨payload, _, _, haccepted, _⟩ := (hok u).mp hload
      exact absurd haccepted.within (by decide)
    | error e u =>
      obtain ⟨hstate, hkind⟩ := herror e u hload
      exact ⟨e, u, rfl, fun hstopped => absurd (hkind.mp hstopped) (by decide), hstate⟩
  · obtain ⟨e, u, hload, hkind⟩ := hstops.mpr (by decide)
    exact ⟨e, u, hload, hkind, (herror' e u hload).1⟩

/-- The sum of header and declared length comes to `2 ^ 64` there, and the program stops where an
error was to be answered. -/
theorem load_overflowingHeader :
    Snapshot.headerLength + (Snapshot.declaredLength overflowingHeader).toNat = UInt64.size ∧
      ∀ t, load "x.snapshot" (some overflowingHeader) t = .error .overflow t := by
  refine ⟨by decide, fun t => load_eq_error_iff.mpr ⟨?_, rfl⟩⟩
  rfl

end Store

end XmlIndex
