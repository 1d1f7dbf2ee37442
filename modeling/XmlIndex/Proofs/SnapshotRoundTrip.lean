import XmlIndex.Proofs.StoreRuns
import XmlIndex.Proofs.WireReading

/-! # Snapshots are read back

A file is taken apart into checksum, length and what follows (`Snapshot.unpack_append`), so what
was written is found again whatever stands behind it, and decodes to the keys and values
(`Snapshot.decode_encode_append`).  A store that is loaded with the snapshot of another has the
values of the other (`Store.load_snapshot`). -/

namespace XmlIndex

namespace Snapshot

variable {payload : Bytes} {pairs : List (Bytes × Bytes)}

/-! ## The parts of a file -/

/-- Words of eight bytes have this bound. -/
theorem bound_eight : Bytes.bound 8 = UInt64.size := rfl

/-- The position behind a payload is the sum, where that is a word. -/
theorem exists_payloadEnd {length : UInt64} (h : headerLength + length.toNat < UInt64.size) :
    ∃ stop, payloadEnd length = .ok stop ∧ stop.toNat = headerLength + length.toNat := by
  refine ⟨UInt64.ofNat headerLength + length, if_pos h, ?_⟩
  exact (UInt64.toNat_add _ length).trans (Nat.mod_eq_of_lt h)

/-- A payload is cut out of a file if it ends within it. -/
theorem slice?_headerLength (file : Bytes) (length : Nat) :
    Bytes.slice? file headerLength (headerLength + length) =
      if headerLength + length ≤ file.length then some ((file.drop headerLength).take length)
      else none := by
  rw [Bytes.slice?, Nat.add_sub_cancel_left]
  simp only [Nat.le_add_right, true_and]

/-- A file with a header is cut, or it has the wrong checksum, or its payload is unpacked; before
all that, the program stops if the payload would end behind the last position. -/
theorem unpack_of_header {file : Bytes} (h : headerLength ≤ file.length) (path : String) :
    unpack path file =
      if headerLength + (declaredLength file).toNat < UInt64.size then
        if headerLength + (declaredLength file).toNat ≤ file.length then
          let payload := (file.drop headerLength).take (declaredLength file).toNat
          if (Checksum.crc32 payload).toNat = checksum file then .ok payload
          else .error (.snapshotChecksum path)
        else .error (.snapshotCut path)
      else .error .overflow := by
  rw [unpack, if_neg (Nat.not_lt_of_le h)]
  -- The position behind the payload is computed first, and the sum may not be a word.
  by_cases hword : headerLength + (declaredLength file).toNat < UInt64.size
  · obtain ⟨stop, hstop, hsum⟩ := exists_payloadEnd hword
    rw [hstop, if_pos hword]
    dsimp only
    rw [hsum, slice?_headerLength]
    -- It is a position within the file, or the file was cut.
    by_cases hfits : headerLength + (declaredLength file).toNat ≤ file.length
    · rw [if_pos hfits, if_pos hfits]
    · rw [if_neg hfits, if_neg hfits]
  · rw [payloadEnd, if_neg hword, if_neg hword]

section Header

variable {front length : Bytes} (hfront : front.length = 4) (hlength : length.length = 8)
  (path : String) (body : Bytes)

include hfront

/-- The checksum stands in the first four bytes. -/
theorem checksum_append (rest : Bytes) : checksum (front ++ rest) = Bytes.ofLittleEndian front := by
  rw [checksum, List.take_left' hfront]

include hlength

/-- A file is as long as its header and what follows. -/
theorem length_header_append : (front ++ (length ++ body)).length = headerLength + body.length := by
  rw [List.length_append, List.length_append, hfront, hlength, headerLength]
  omega

/-- What follows stands behind the header. -/
theorem drop_header_append : (front ++ (length ++ body)).drop headerLength = body := by
  rw [show headerLength = 4 + 8 from rfl, ← List.drop_drop, List.drop_left' hfront,
    List.drop_left' hlength]

/-- The length stands in the eight bytes behind the checksum. -/
theorem declaredLength_append :
    (declaredLength (front ++ (length ++ body))).toNat = Bytes.ofLittleEndian length := by
  have hword := Bytes.ofLittleEndian_lt length
  rw [hlength, bound_eight] at hword
  rw [declaredLength, List.drop_left' hfront, List.take_left' hlength]
  exact (UInt64.toNat_ofNat' ..).trans (Nat.mod_eq_of_lt hword)

/-- A file that is put together is taken apart by the length and the checksum in its header. -/
theorem unpack_append :
    unpack path (front ++ (length ++ body)) =
      if headerLength + Bytes.ofLittleEndian length < Bytes.bound 8 then
        if Bytes.ofLittleEndian length ≤ body.length then
          if (Checksum.crc32 (body.take (Bytes.ofLittleEndian length))).toNat =
              Bytes.ofLittleEndian front then
            .ok (body.take (Bytes.ofLittleEndian length))
          else .error (.snapshotChecksum path)
        else .error (.snapshotCut path)
      else .error .overflow := by
  have hfile := length_header_append hfront hlength body
  rw [unpack_of_header (by rw [hfile]; exact Nat.le_add_right ..)]
  -- Checksum, length and body are found where they were put.
  simp only [hfile, declaredLength_append hfront hlength, checksum_append hfront,
    drop_header_append hfront hlength, Nat.add_le_add_iff_left]
  rfl

end Header

/-- What is written in front of a payload. -/
theorem pack_eq (payload : Bytes) :
    pack payload = Bytes.littleEndian 4 (Checksum.crc32 payload).toNat ++
      (Bytes.littleEndian 8 payload.length ++ payload) := List.append_assoc ..

/-- A packed payload is longer by the header. -/
theorem length_pack (payload : Bytes) : (pack payload).length = headerLength + payload.length := by
  rw [pack, List.length_append, List.length_append, Bytes.length_littleEndian,
    Bytes.length_littleEndian, headerLength]

/-- A checksum is read back from its four bytes. -/
theorem ofLittleEndian_checksum (bs : Bytes) :
    Bytes.ofLittleEndian (Bytes.littleEndian 4 (Checksum.crc32 bs).toNat) =
      (Checksum.crc32 bs).toNat := by
  rw [Bytes.ofLittleEndian_littleEndian]
  exact Nat.mod_eq_of_lt (Checksum.crc32 bs).isLt

/-- A length that fits into eight bytes is read back from them. -/
theorem ofLittleEndian_length (h : payload.length < Bytes.bound 8) :
    Bytes.ofLittleEndian (Bytes.littleEndian 8 payload.length) = payload.length := by
  rw [Bytes.ofLittleEndian_littleEndian, Nat.mod_eq_of_lt h]

/-- A packed payload is unpacked, whatever stands behind it. -/
theorem unpack_pack_append (path : String) (h : headerLength + payload.length < Bytes.bound 8)
    (behind : Bytes) : unpack path (pack payload ++ behind) = .ok payload := by
  rw [pack_eq, List.append_assoc, List.append_assoc,
    unpack_append (Bytes.length_littleEndian ..) (Bytes.length_littleEndian ..),
    ofLittleEndian_length (by omega), if_pos h, if_pos (by rw [List.length_append]; omega),
    List.take_left, ofLittleEndian_checksum, if_pos rfl]

/-! ## The payload -/

/-- The lengths that are written fit into their words. -/
structure Fits (pairs : List (Bytes × Bytes)) : Prop where
  count : pairs.length < Bytes.bound 8
  key : ∀ p ∈ pairs, p.1.length < Bytes.bound 8
  value : ∀ p ∈ pairs, p.2.length < Bytes.bound 8

/-- If the length of the payload fits, all do. -/
theorem fits_of_length (h : (encodePayload pairs).length < Bytes.bound 8) : Fits pairs := by
  -- Every pair takes more bytes than its key and its value have.
  have hpairs : ∀ pairs : List (Bytes × Bytes),
      let written := pairs.flatMap fun p => Wire.putBytes p.1 ++ Wire.putBytes p.2
      pairs.length ≤ written.length ∧
        ∀ p ∈ pairs, p.1.length ≤ written.length ∧ p.2.length ≤ written.length := by
    intro pairs
    induction pairs with
    | nil => exact ⟨Nat.le_refl _, fun p hp => (by cases hp)⟩
    | cons p pairs ih =>
      obtain ⟨hcount, hpair⟩ := ih
      simp only [List.flatMap_cons, List.length_append, Wire.putBytes, Wire.putLength,
        Bytes.length_littleEndian, List.length_cons] at hcount hpair ⊢
      refine ⟨by omega, List.forall_mem_cons.mpr ⟨by omega, fun p' hp' => ?_⟩⟩
      have := hpair p' hp'
      omega
  -- The count and all lengths are therefore below what a word can hold.
  obtain ⟨hcount, hpair⟩ := hpairs pairs
  rw [encodePayload, Wire.putList, List.length_append] at h
  refine ⟨by omega, fun p hp => ?_, fun p hp => ?_⟩
  · have := (hpair p hp).1
    omega
  · have := (hpair p hp).2
    omega

/-- A key and a value are read back from their bytes. -/
theorem takes_pair {p : Bytes × Bytes} (hkey : p.1.length < Bytes.bound 8)
    (hvalue : p.2.length < Bytes.bound 8) :
    Wire.Takes pair p (Wire.putBytes p.1 ++ Wire.putBytes p.2) := by
  rw [← List.append_nil (Wire.putBytes p.2)]
  exact (Wire.takes_bytes hkey).bind ((Wire.takes_bytes hvalue).bind (Wire.takes_pure p))

/-- Keys and values are read back from the payload, if their lengths fit. -/
theorem takes_payload (h : Fits pairs) :
    Wire.Takes (Wire.list pair) pairs (encodePayload pairs) :=
  Wire.takes_list h.count fun p hp => takes_pair (h.key p hp) (h.value p hp)

/-- With the payload known, only the keys and values in it are left to read. -/
theorem decode_of_unpack {path : String} {file : Bytes} (h : unpack path file = .ok payload) :
    decode path file =
      match Wire.list pair payload with
      | some (pairs, _) => .ok pairs
      | none => .error .undecodable := by
  rw [decode, h]
  rfl

/-- Keys and values are decoded from a snapshot of them, whatever stands behind it. -/
theorem decode_encode_append (path : String)
    (h : headerLength + (encodePayload pairs).length < Bytes.bound 8) (behind : Bytes) :
    decode path (encode pairs ++ behind) = .ok pairs := by
  have hread := takes_payload (fits_of_length (Nat.lt_of_le_of_lt (Nat.le_add_left ..) h)) []
  rw [List.append_nil] at hread
  rw [encode, decode_of_unpack (unpack_pack_append path h behind), hread]

end Snapshot

namespace ValueMap

/-- Putting pairs with different keys, one finds the pairs, and what there was under other keys. -/
theorem foldl_put_eq_some_iff {pairs : List (Bytes × Bytes)} (h : (pairs.map (·.1)).Nodup)
    {m : ValueMap} {key value : Bytes} :
    pairs.foldl (fun m p => m.put p.1 p.2) m key = some value ↔
      (key, value) ∈ pairs ∨ (key ∉ pairs.map (·.1) ∧ m key = some value) := by
  induction pairs generalizing m with
  | nil => simp
  | cons p pairs ih =>
    obtain ⟨hnew, hrest⟩ := List.nodup_cons.mp h
    rw [List.foldl_cons, ih hrest, put, List.map_cons, List.mem_cons, List.mem_cons]
    by_cases hkey : key = p.1
    · subst hkey
      -- The key does not come again, so the pair is not overwritten.
      have hpair : (p.1, value) ∉ pairs := fun hmem =>
        hnew (List.mem_map.mpr ⟨_, hmem, rfl⟩)
      simp [hpair, hnew, Prod.ext_iff, eq_comm]
    · simp [hkey, Prod.ext_iff]

/-- Where no key comes twice, the pairs are the map. -/
theorem ofPairs_eq_some_iff {pairs : List (Bytes × Bytes)} (h : (pairs.map (·.1)).Nodup)
    {key value : Bytes} : ofPairs pairs key = some value ↔ (key, value) ∈ pairs := by
  rw [ofPairs, foldl_put_eq_some_iff h]
  simp [empty]

end ValueMap

namespace Store

variable {s t : Store}

/-! ## Contents -/

/-- No key comes twice in the contents of a store. -/
theorem nodup_keys_contents (s : Store) : (s.contents.map (·.1)).Nodup := by
  rw [contents, List.map_map]
  exact s.entries.nodup_keys

/-- The contents of a store, as a map, are its values. -/
theorem ofPairs_contents (s : Store) : ValueMap.ofPairs s.contents = s.value? := by
  funext key
  refine Option.ext fun value => ?_
  rw [ValueMap.ofPairs_eq_some_iff s.nodup_keys_contents, mem_contents_iff]

/-- A snapshot is as long as its header and the contents. -/
theorem length_snapshot (s : Store) : s.snapshot.length =
    Snapshot.headerLength + (Snapshot.encodePayload s.contents).length := by
  rw [snapshot, Snapshot.encode, Snapshot.length_pack]

/-! ## Loading -/

/-- A file that can be decoded refills the store. -/
theorem load_of_decode {path : String} {file : Bytes} {pairs : List (Bytes × Bytes)}
    (h : Snapshot.decode path file = .ok pairs) (t : Store) :
    load path (some file) t = .ok () (t.refill pairs) :=
  Action.bind_eq_ok_iff.mpr ⟨pairs, t, by rw [h]; rfl, rfl⟩

/-- Placing values changes entries and addresses only. -/
theorem foldl_place_eq (pairs : List (Bytes × Bytes)) (s : Store) :
    ∃ entries next, pairs.foldl (fun s p => s.place p.1 p.2) s =
      { s with entries := entries, nextAddress := next } := by
  induction pairs generalizing s with
  | nil => exact ⟨s.entries, s.nextAddress, rfl⟩
  | cons p pairs ih =>
    obtain ⟨entries, next, h⟩ := ih (s.place p.1 p.2)
    exact ⟨entries, next, h⟩

/-- The snapshot of a store can be loaded into any other, whatever that held before and whatever
stands behind the snapshot in the file.  The loaded store has exactly the keys and values that
were saved, and has the same snapshot again; their addresses are distinct, and none was used
before in any run that led to the store that was loaded.  Nothing else of it has changed.  The
length of the snapshot is a word of eight bytes, as that of any file is. -/
theorem load_snapshot (s t : Store) (h : s.snapshot.length < Bytes.bound 8) :
    ∃ t', (∀ path behind, load path (some (s.snapshot ++ behind)) t = .ok () t') ∧
      (∀ key, t'.value? key = s.value? key) ∧ t'.contents = s.contents ∧
      t'.snapshot = s.snapshot ∧
      (∀ {key key' a}, t'.address? key = some a → t'.address? key' = some a → key = key') ∧
      (∀ {start u : Store} {before since : History}, start.entries = .empty →
        Run start before u → Run u since t →
        ∀ {key a}, t'.address? key = some a → ∀ key', u.address? key' ≠ some a) ∧
      ∃ entries next, t' = { t with entries := entries, nextAddress := next } := by
  rw [length_snapshot] at h
  have hvalue : (t.refill s.contents).value? = s.value? := by
    rw [value?_refill, ofPairs_contents]
  have hcontents := contents_eq_of_value?_eq hvalue
  -- The counter goes on from where it was, but nothing is left of what there was.
  have hcleared : ({ t with entries := .empty } : Store).Addressed := addressed_of_empty rfl
  have haddressed :=
    (follows_foldl_place s.contents { t with entries := .empty }).addressed hcleared
  refine ⟨t.refill s.contents, fun path behind => ?_, congrFun hvalue, hcontents, ?_,
    haddressed.distinct, ?_, foldl_place_eq s.contents { t with entries := .empty }⟩
  · exact load_of_decode (Snapshot.decode_encode_append path h behind) t
  · rw [snapshot, snapshot, hcontents]
  -- An address of the loaded store was given by the refill, so it is behind all earlier ones.
  · intro start u before since hstart hbefore hsince key a hkey key' hkey'
    rcases (follows_refill t s.contents).origin hkey with ⟨-, hstays⟩ | hnew
    · exact hstays trivial
    · have hold := (hbefore.addressed hstart).lt_next hkey'
      have hnext := hsince.follows.next_le
      omega

/-- A key and a value of no bytes are loaded in place of what was there. -/
theorem load_snapshot_emptyKey :
    let saved : Store := Store.place { name := "x", timeout := ⟨0⟩ } [] []
    let loading : Store := Store.place { name := "y", timeout := ⟨0⟩ } [1] [5]
    ∃ t', (∀ path behind, load path (some (saved.snapshot ++ behind)) loading = .ok () t') ∧
      t'.value? [] = some [] ∧ t'.value? [1] = none ∧ t'.contents = [([], [])] := by
  intro saved loading
  obtain ⟨t', hload, hvalue, hcontents, -⟩ := load_snapshot saved loading (by decide)
  exact ⟨t', hload, hvalue [], hvalue [1], hcontents⟩

end Store

end XmlIndex
