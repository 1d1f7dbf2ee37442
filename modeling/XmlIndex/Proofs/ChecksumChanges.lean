import XmlIndex.Store.Checksum

/-! # A changed byte changes the checksum

No step of the register loses anything: the bit that is shifted out comes back as the highest
one, because the polynomial has its highest bit set (`Checksum.getLsbD_shift_top`).  So two
registers that differ go on to differ, whatever bytes follow (`Checksum.foldl_update_inj`), and
bytes that differ in one place have different checksums (`Checksum.crc32_set_ne`). -/

namespace XmlIndex

namespace Checksum

variable {r r' : BitVec 32} {b b' : UInt8}

/-- The bit shifted out comes back as the highest one. -/
theorem getLsbD_shift_top (r : BitVec 32) : (shift r).getLsbD 31 = r.getLsbD 0 := by
  rw [shift]
  cases h : r.getLsbD 0 <;> simp [polynomial]

/-- A shift loses nothing. -/
theorem shift_inj (h : shift r = shift r') : r = r' := by
  have hlow : r.getLsbD 0 = r'.getLsbD 0 := by
    rw [← getLsbD_shift_top, h, getLsbD_shift_top]
  have hhigh : r >>> 1 = r' >>> 1 := by
    rw [shift, shift, hlow] at h
    split at h
    · exact (BitVec.xor_left_inj polynomial).mp h
    · exact h
  refine BitVec.eq_of_getLsbD_eq fun i _ => ?_
  -- The lowest bit is told by the highest one, and the others have moved by one place.
  cases i with
  | zero => exact hlow
  | succ i =>
    have hbit := congrArg (·.getLsbD i) hhigh
    simp only [BitVec.getLsbD_ushiftRight] at hbit
    rw [Nat.add_comm]
    exact hbit

/-- Shifts lose nothing. -/
theorem shifts_inj {n : Nat} (h : shifts n r = shifts n r') : r = r' := by
  induction n generalizing r r' with
  | zero => exact h
  | succ n ih => exact shift_inj (ih h)

/-- Registers that differ do so after a byte. -/
theorem update_inj_left (h : update r b = update r' b) : r = r' :=
  (BitVec.xor_left_inj _).mp (shifts_inj h)

/-- A register differs after bytes that differ. -/
theorem update_inj_right (h : update r b = update r b') : b = b' := by
  have hword := (BitVec.xor_right_inj _).mp (shifts_inj h)
  have hnat := congrArg BitVec.toNat hword
  have hb := b.toNat_lt
  have hb' := b'.toNat_lt
  rw [BitVec.toNat_ofNat, BitVec.toNat_ofNat, Nat.mod_eq_of_lt (by omega),
    Nat.mod_eq_of_lt (by omega)] at hnat
  exact UInt8.toNat_inj.mp hnat

/-- Bytes that follow lose nothing. -/
theorem foldl_update_inj {bs : Bytes} (h : bs.foldl update r = bs.foldl update r') : r = r' := by
  induction bs generalizing r r' with
  | nil => exact h
  | cons b bs ih => exact update_inj_left (ih h)

/-- Bytes that differ in one place have different checksums. -/
theorem crc32_append_cons_inj {front back : Bytes}
    (h : crc32 (front ++ b :: back) = crc32 (front ++ b' :: back)) : b = b' := by
  have hregister := BitVec.not_inj.mp h
  rw [List.foldl_append, List.foldl_append] at hregister
  exact update_inj_right (foldl_update_inj hregister)

/-- With one byte changed there is another checksum. -/
theorem crc32_set_ne {bs : Bytes} {i : Nat} (h : bs.set i b ≠ bs) :
    crc32 (bs.set i b) ≠ crc32 bs := by
  have hi : i < bs.length := Nat.lt_of_not_le fun hle => h (List.set_eq_of_length_le hle)
  have hset : bs.set i b = bs.take i ++ b :: bs.drop (i + 1) := by
    rw [List.set_eq_take_append_cons_drop, if_pos hi]
  have hbs : bs = bs.take i ++ bs[i] :: bs.drop (i + 1) := by
    rw [← List.drop_eq_getElem_cons hi, List.take_append_drop]
  -- Before and after the byte the files are the same, and the checksum determines the byte between.
  intro heq
  rw [hset] at heq
  have hbyte := crc32_append_cons_inj (heq.trans (congrArg crc32 hbs))
  exact h (by rw [hbyte, List.set_getElem_self])

end Checksum

end XmlIndex
