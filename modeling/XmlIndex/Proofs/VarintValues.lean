import Mathlib.Algebra.BigOperators.Ring.List
import Mathlib.Tactic.Ring
import XmlIndex.Varint

/-! # The value of a variable-length number

The bytes of a number have a value of any size: seven bits of every byte, lowest first
(`Varint.valueOf`).  Reading a whole number comes down to that value, taken modulo the size of a
word, or to a refusal if there are more than five bytes (`Varint.decode_whole`), and whatever is
read is a whole number (`Varint.decode_eq_ok_iff`).

Five bytes hold thirty-five bits.  So what is read is the value itself if and only if the fifth
byte, where there is one, has none but its four lowest bits set (`Varint.decode_exact_iff`). -/

namespace XmlIndex

namespace Varint

/-- The bytes of one number: the highest bit is set in all of them but the last. -/
def IsWhole (ds : Bytes) : Prop :=
  ∃ front last, ds = front ++ [last] ∧ (∀ b ∈ front, 128 ≤ b) ∧ last < 128

/-- The value of the bytes of a number, however many there are. -/
def valueOf (ds : Bytes) : Nat := (ds.mapIdx fun k b => b.toNat % 128 * 2 ^ (7 * k)).sum

variable {bs ds front : Bytes} {shift n : Nat} {v : UInt32}

/-! ## Values -/

/-- The first byte is the lowest. -/
theorem valueOf_cons (b : UInt8) (ds : Bytes) :
    valueOf (b :: ds) = b.toNat % 128 + 128 * valueOf ds := by
  -- Behind the first byte every byte counts 128 times as much.
  have hbehind : (ds.mapIdx fun k d => d.toNat % 128 * 2 ^ (7 * (k + 1))).sum =
      128 * valueOf ds := by
    rw [valueOf, List.mapIdx_eq_zipIdx_map, List.mapIdx_eq_zipIdx_map, ← List.sum_map_mul_left]
    congr 2
    funext ⟨d, k⟩
    show d.toNat % 128 * 2 ^ (7 * k + 7) = 128 * (d.toNat % 128 * 2 ^ (7 * k))
    rw [Nat.pow_add]
    ring
  rw [valueOf, List.mapIdx_cons, List.sum_cons, hbehind, Nat.mul_zero, Nat.pow_zero, Nat.mul_one]

/-- The last byte is the highest. -/
theorem valueOf_concat (front : Bytes) (last : UInt8) :
    valueOf (front ++ [last]) = valueOf front + last.toNat % 128 * 2 ^ (7 * front.length) := by
  rw [valueOf, List.mapIdx_concat, List.sum_append, List.sum_singleton, valueOf]

/-- So many bytes hold no larger value. -/
theorem valueOf_lt (ds : Bytes) : valueOf ds < 2 ^ (7 * ds.length) := by
  induction ds with
  | nil => decide
  | cons b ds ih =>
    rw [valueOf_cons, List.length_cons, Nat.mul_add, Nat.pow_add]
    omega

/-! ## Reading whole numbers -/

/-- Bytes that go on are gathered as long as there is room for another one. -/
theorem decodeFrom_append (hfront : ∀ b ∈ front, 128 ≤ b)
    (hroom : shift + 7 * front.length ≤ 28) (value used : Nat) (more : Bytes) :
    decodeFrom shift value used (front ++ more) =
      decodeFrom (shift + 7 * front.length) (value + valueOf front <<< shift)
        (used + front.length) more := by
  -- Induction on the bytes that go on; what is gathered grows with each.
  induction front generalizing shift value used with
  | nil => simp [valueOf]
  | cons b front ih =>
    have hb : ¬ b < 128 := UInt8.not_lt.mpr (hfront b (List.mem_cons_self ..))
    rw [List.length_cons] at hroom
    have hsum : value + (b.toNat % 128) <<< shift + valueOf front <<< (shift + 7) =
        value + valueOf (b :: front) <<< shift := by
      rw [valueOf_cons]
      simp only [Nat.shiftLeft_eq, Nat.pow_add]
      ring
    rw [List.cons_append, decodeFrom, if_neg hb, if_neg (by omega),
      ih (fun b' hb' => hfront b' (List.mem_cons_of_mem b hb')) (by omega), hsum,
      List.length_cons]
    congr 1 <;> omega

/-- Bytes that go on for too long are refused, whatever follows. -/
theorem decodeFrom_append_of_long (hfront : ∀ b ∈ front, 128 ≤ b) (hshift : shift ≤ 28)
    (hlong : 28 < shift + 7 * front.length) (value used : Nat) (more : Bytes) :
    decodeFrom shift value used (front ++ more) = .error .varintOverflow := by
  -- Induction on the bytes that go on; one of them is one too many.
  induction front generalizing shift value used with
  | nil =>
    rw [List.length_nil] at hlong
    omega
  | cons b front ih =>
    have hb : ¬ b < 128 := UInt8.not_lt.mpr (hfront b (List.mem_cons_self ..))
    rw [List.length_cons] at hlong
    rw [List.cons_append, decodeFrom, if_neg hb]
    split
    · rfl
    · next hnext =>
      exact ih (fun b' hb' => hfront b' (List.mem_cons_of_mem b hb')) (by omega) (by omega) _ _

/-- A whole number is read as its value modulo the size of a word, or refused for its length. -/
theorem decode_whole (h : IsWhole ds) (rest : Bytes) :
    decode (ds ++ rest) =
      if ds.length ≤ 5 then .ok (UInt32.ofNat (valueOf ds), ds.length)
      else .error .varintOverflow := by
  obtain ⟨front, last, rfl, hfront, hlast⟩ := h
  rw [List.append_assoc, decode, List.length_append, List.length_singleton]
  -- The last byte is reached before the fifth continuation, or it is not.
  split
  · next hlength =>
    rw [decodeFrom_append hfront (by omega), List.singleton_append, decodeFrom, if_pos hlast,
      valueOf_concat, Nat.shiftLeft_eq, Nat.shiftLeft_eq]
    simp
  · next hlength => exact decodeFrom_append_of_long hfront (by omega) (by omega) _ _ _

/-- Bytes that go on up to their end are no number. -/
theorem exists_decode_eq_error (h : ∀ b ∈ bs, 128 ≤ b) : ∃ e, decode bs = .error e := by
  rw [decode, ← List.append_nil bs]
  by_cases hroom : 0 + 7 * bs.length ≤ 28
  · exact ⟨_, decodeFrom_append h hroom 0 0 []⟩
  · exact ⟨_, decodeFrom_append_of_long h (Nat.zero_le 28) (by omega) 0 0 []⟩

/-- Bytes go on to their end, or a whole number stands in front. -/
theorem forall_or_exists_whole (bs : Bytes) :
    (∀ b ∈ bs, 128 ≤ b) ∨ ∃ ds rest, bs = ds ++ rest ∧ IsWhole ds := by
  induction bs with
  | nil => exact .inl fun b hb => absurd hb List.not_mem_nil
  | cons b bs ih =>
    -- The first byte that does not go on ends the number.
    by_cases hb : b < 128
    · exact .inr ⟨[b], bs, rfl, [], b, rfl, fun b' hb' => absurd hb' List.not_mem_nil, hb⟩
    · have hb := UInt8.not_lt.mp hb
      rcases ih with hall | ⟨ds, rest, rfl, front, last, rfl, hfront, hlast⟩
      · exact .inl (List.forall_mem_cons.mpr ⟨hb, hall⟩)
      · exact .inr ⟨b :: (front ++ [last]), rest, rfl, b :: front, last, rfl,
          List.forall_mem_cons.mpr ⟨hb, hfront⟩, hlast⟩

/-- What is read is a whole number of at most five bytes. -/
theorem decode_eq_ok_iff : decode bs = .ok (v, n) ↔
    n ≤ bs.length ∧ n ≤ 5 ∧ IsWhole (bs.take n) ∧ v = UInt32.ofNat (valueOf (bs.take n)) := by
  constructor
  · intro h
    -- Bytes that all go on are no number.
    rcases forall_or_exists_whole bs with hall | ⟨ds, rest, rfl, hwhole⟩
    · obtain ⟨e, he⟩ := exists_decode_eq_error hall
      rw [he] at h
      cases h
    · rw [decode_whole hwhole rest] at h
      split at h
      · next hlength =>
        obtain ⟨rfl, rfl⟩ := Prod.mk.inj (Except.ok.inj h)
        rw [List.take_left, List.length_append]
        exact ⟨Nat.le_add_right _ _, hlength, hwhole, rfl⟩
      · cases h
  · rintro ⟨hle, hlength, hwhole, rfl⟩
    have htaken := decode_whole hwhole (bs.drop n)
    rwa [List.take_append_drop, List.length_take_of_le hle, if_pos hlength] at htaken

/-! ## Exact values -/

/-- A number has a byte at least. -/
theorem IsWhole.length_pos (h : IsWhole ds) : 0 < ds.length := by
  obtain ⟨front, last, rfl, -, -⟩ := h
  rw [List.length_append]
  exact Nat.succ_pos _

/-- The value of at most five bytes fits into a word unless the fifth has too high a bit set. -/
theorem valueOf_lt_iff (h : IsWhole ds) (hlength : ds.length ≤ 5) :
    valueOf ds < 2 ^ 32 ↔ ∀ b ∈ ds[4]?, b < 16 := by
  obtain ⟨front, last, rfl, -, hlast⟩ := h
  rw [List.length_append, List.length_singleton] at hlength
  have hlast : last.toNat < 128 := UInt8.lt_iff_toNat_lt.mp hlast
  have hfront := valueOf_lt front
  -- Four bytes hold 28 bits, so only a fifth can be too high.
  by_cases hfive : front.length = 4
  · have hget : (front ++ [last])[4]? = some last := by
      rw [← hfive, List.getElem?_concat_length]
    rw [hget, valueOf_concat, Nat.mod_eq_of_lt hlast]
    rw [hfive] at hfront ⊢
    have hsixteen : last < 16 ↔ last.toNat < 16 := UInt8.lt_iff_toNat_lt
    simp only [Option.mem_some_iff, forall_eq', hsixteen]
    omega
  · have hget : (front ++ [last])[4]? = none := by
      rw [List.getElem?_eq_none_iff, List.length_append, List.length_singleton]
      omega
    -- Of fewer bytes any value is low enough, and there is no fifth.
    have hsmall : valueOf (front ++ [last]) < 2 ^ 28 := by
      refine Nat.lt_of_lt_of_le (valueOf_lt _) (Nat.pow_le_pow_right (by decide) ?_)
      rw [List.length_append, List.length_singleton]
      omega
    rw [hget]
    simp only [Option.not_mem_none, false_implies, implies_true, iff_true]
    omega

/-- What reading answers is a whole number of the bytes, and its value modulo the size of a word.
It is the value itself if and only if the fifth byte, where one was taken, has none but its four
lowest bits set.

A whole number whose value does not fit into a word is refused if and only if it has more than
five bytes. -/
theorem decode_exact_iff (bs : Bytes) :
    (∀ v n, decode bs = .ok (v, n) →
      0 < n ∧ n ≤ bs.length ∧ IsWhole (bs.take n) ∧
      v.toNat = valueOf (bs.take n) % 2 ^ 32 ∧
      (v.toNat = valueOf (bs.take n) ↔ ∀ b ∈ (bs.take n)[4]?, b < 16)) ∧
    ∀ ds, IsWhole ds → ds <+: bs → 2 ^ 32 ≤ valueOf ds →
      ((∃ e, decode bs = .error e ∧ e.message = "VByte overflow") ↔ 5 < ds.length) := by
  refine ⟨fun v n h => ?_, fun ds hwhole hds _ => ?_⟩
  · obtain ⟨hle, hfive, hwhole, rfl⟩ := decode_eq_ok_iff.mp h
    have hlength : (bs.take n).length = n := List.length_take_of_le hle
    refine ⟨hlength ▸ hwhole.length_pos, hle, hwhole, UInt32.toNat_ofNat', ?_⟩
    rw [UInt32.toNat_ofNat', Nat.mod_eq_iff_lt (by decide),
      valueOf_lt_iff hwhole (hlength.trans_le hfive)]
  -- A number that stands in front is read, or refused for its length.
  · obtain ⟨rest, rfl⟩ := hds
    rw [decode_whole hwhole]
    split
    · next hshort =>
      refine iff_of_false ?_ (Nat.not_lt.mpr hshort)
      rintro ⟨e, he, -⟩
      cases he
    · next hlong => exact iff_of_true ⟨_, rfl, rfl⟩ (Nat.lt_of_not_le hlong)

/-- The largest word is read exactly whatever follows it, and a number of six bytes is refused. -/
theorem decode_exact_largest :
    decode [255, 255, 255, 255, 15, 7] = .ok (4294967295, 5) ∧
      valueOf [255, 255, 255, 255, 15] = 4294967295 ∧
      ∃ e, decode [128, 128, 128, 128, 128, 1, 7] = .error e ∧ e.message = "VByte overflow" := by
  have hread : decode [255, 255, 255, 255, 15, 7] = .ok (4294967295, 5) := by decide
  obtain ⟨-, -, -, -, hexact⟩ := (decode_exact_iff _).1 _ _ hread
  have hwhole : IsWhole [128, 128, 128, 128, 128, 1] :=
    ⟨[128, 128, 128, 128, 128], 1, rfl, by simp, by decide⟩
  have hrefused := (decode_exact_iff _).2 _ hwhole (List.prefix_append _ [7]) (by decide)
  exact ⟨hread, (hexact.mpr (by simp)).symm, hrefused.mpr (by decide)⟩

/-- The smallest value that does not fit into a word is read as zero. -/
theorem decode_wide_eq_zero :
    IsWhole [128, 128, 128, 128, 16] ∧ valueOf [128, 128, 128, 128, 16] = 2 ^ 32 ∧
      decode [128, 128, 128, 128, 16] = .ok (0, 5) :=
  ⟨⟨[128, 128, 128, 128], 16, rfl, by simp, by decide⟩, by decide, by decide⟩

end Varint

end XmlIndex
