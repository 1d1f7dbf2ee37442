import XmlIndex.Input
import XmlIndex.Proofs.ActionSteps

/-! # Reading a segment

`Takes x bs a` says that the action `x` answers `a` for the bytes `bs`, whatever stands in
front of them and behind them, and moves over exactly these bytes.  It is a property of the
action and the segment alone, so segments can be put together (`Takes.bind`) and cut apart.

`IsLocal x` is the converse: every success of `x` comes from a segment that it takes.  All
readers of the format are local, which is why a value can be extended at its end without any
effect on what was in it before. -/

namespace XmlIndex

namespace Input

variable {α β : Type}

/-- Position and remaining length add up to the length of the data. -/
theorem pos_add_left (i : Input) : i.pos + i.left = i.data.length := by
  have hleft := i.left_eq
  have hpos := i.pos_le
  omega

/-- The position moves by what is taken off the front of the bytes behind it. -/
theorem pos_of_rest {i i' : Input} {bs : Bytes} (hd : i'.data = i.data)
    (hr : i.rest = bs ++ i'.rest) : i'.pos = i.pos + bs.length := by
  have hbefore := i.pos_add_left
  have hafter := i'.pos_add_left
  have hleft : i.left = bs.length + i'.left := by rw [left, hr, List.length_append, left]
  rw [hd] at hafter
  omega

/-- Two positions are the same if the bytes around them and the bytes behind them are. -/
theorem eq_of_data_of_rest {i j : Input} (hd : i.data = j.data) (hr : i.rest = j.rest) :
    i = j := by
  have hpos : j.pos = i.pos := pos_of_rest hd.symm (show i.rest = [] ++ j.rest from hr)
  cases i
  cases j
  simp only at hd hr hpos
  subst hd hr hpos
  rfl

/-- `x` answers `a` for the bytes `bs` and moves over them. -/
def Takes (x : Reads α) (bs : Bytes) (a : α) : Prop :=
  ∀ i rest, i.rest = bs ++ rest → ∃ i', x i = .ok a i' ∧ i'.data = i.data ∧ i'.rest = rest

/-- Every success of `x` comes from the bytes it moves over. -/
def IsLocal (x : Reads α) : Prop :=
  ∀ i a i', x i = .ok a i' → ∃ bs, i.rest = bs ++ i'.rest ∧ i'.data = i.data ∧ Takes x bs a

/-! ## Putting readers together -/

/-- To answer without reading takes no bytes. -/
theorem Takes.pure (a : α) : Takes (pure a) [] a :=
  fun i _ h => ⟨i, rfl, rfl, h⟩

/-- One reader after the other takes one segment after the other. -/
theorem Takes.bind {x : Reads α} {f : α → Reads β} {bs cs : Bytes} {a : α} {b : β}
    (hx : Takes x bs a) (hf : Takes (f a) cs b) : Takes (x >>= f) (bs ++ cs) b := by
  intro i rest h
  obtain ⟨i₁, hx, hd₁, hr₁⟩ := hx i (cs ++ rest) (by rw [h, List.append_assoc])
  obtain ⟨i₂, hf, hd₂, hr₂⟩ := hf i₁ rest hr₁
  exact ⟨i₂, Action.bind_eq_ok_iff.mpr ⟨a, i₁, hx, hf⟩, hd₂.trans hd₁, hr₂⟩

/-- Computing with what was read takes no further bytes. -/
theorem Takes.bind_pure {x : Reads α} {bs : Bytes} {a : α} (hx : Takes x bs a) (f : α → β) :
    Takes (do let a ← x; return f a) bs (f a) := by
  have htakes := hx.bind (f := fun a => Pure.pure (f a)) (Takes.pure (f a))
  rwa [List.append_nil] at htakes

/-- A function applied to the answer does not change what is taken. -/
theorem Takes.map {x : Reads α} {bs : Bytes} {a : α} (f : α → β) (hx : Takes x bs a) :
    Takes (f <$> x) bs (f a) := by
  intro i rest h
  obtain ⟨i', hx, hd, hr⟩ := hx i rest h
  exact ⟨i', Action.map_eq_ok_iff.mpr ⟨a, hx, rfl⟩, hd, hr⟩

/-- An answer without reading comes from no bytes. -/
theorem IsLocal.pure (a : α) : IsLocal (pure a) := by
  intro i b i' h
  obtain ⟨rfl, rfl⟩ := EStateM.Result.ok.inj h
  exact ⟨[], rfl, rfl, Takes.pure _⟩

/-- A reader that always fails has no success to account for. -/
theorem IsLocal.throw (e : Error) : IsLocal (throw e : Reads α) := by
  intro i b i' h
  cases h

/-- Local readers in sequence are local. -/
theorem IsLocal.bind {x : Reads α} {f : α → Reads β} (hx : IsLocal x)
    (hf : ∀ a, IsLocal (f a)) : IsLocal (x >>= f) := by
  intro i b i'' h
  obtain ⟨a, i', hxi, hfi⟩ := Action.bind_eq_ok_iff.mp h
  obtain ⟨bs, hr, hd, ht⟩ := hx i a i' hxi
  obtain ⟨cs, hr', hd', ht'⟩ := hf a i' b i'' hfi
  exact ⟨bs ++ cs, by rw [hr, hr', List.append_assoc], hd'.trans hd, ht.bind ht'⟩

/-- A result that is there already is answered for no bytes. -/
theorem takes_ofExcept {x : Except Error α} {a : α} (h : x = .ok a) :
    Takes (Action.ofExcept x) [] a := by
  subst h
  exact Takes.pure a

/-- A result that is there already, good or bad, is a local reader. -/
theorem isLocal_ofExcept (x : Except Error α) : IsLocal (Action.ofExcept x) := by
  cases x with
  | ok a => exact IsLocal.pure a
  | error e => exact IsLocal.throw e

/-- What a local reader answers on bytes that are all read. -/
theorem IsLocal.takes_of_left_eq_zero {x : Reads α} (hx : IsLocal x) {bs : Bytes} {a : α}
    {i' : Input} (h : x (.ofBytes bs) = .ok a i') (hl : i'.left = 0) : Takes x bs a := by
  obtain ⟨cs, hr, _, ht⟩ := hx _ _ _ h
  have hnil : i'.rest = [] := List.length_eq_zero_iff.mp hl
  rw [hnil, List.append_nil] at hr
  rwa [show bs = cs from hr]

/-! ## Bytes and words of fixed width -/

/-- A reader that moves by the length of a segment, and not further, takes that segment. -/
theorem takes_advance {x : Reads α} {bs : Bytes} {a : α}
    (h : ∀ i rest, i.rest = bs ++ rest → ∃ hn, x i = .ok a (i.advance bs.length hn)) :
    Takes x bs a := by
  intro i rest hr
  obtain ⟨hn, hx⟩ := h i rest hr
  refine ⟨_, hx, rfl, ?_⟩
  simp only [advance, hr, List.drop_left]

/-- A byte is read for itself. -/
theorem takes_byte (b : UInt8) : Takes byte [b] b := by
  refine takes_advance fun i rest hr => ⟨by simp [left, hr], ?_⟩
  simp only [byte]
  split
  · next h => simp [hr] at h
  · next c _ h =>
    rw [hr] at h
    obtain ⟨rfl, _⟩ := List.cons.inj h
    rfl

/-- A byte that was read stood in front. -/
theorem byte_eq_ok {i i' : Input} {b : UInt8} (h : byte i = .ok b i') :
    i.rest = b :: i'.rest ∧ i'.data = i.data := by
  simp only [byte] at h
  split at h
  · cases h
  · next c t hr =>
    obtain ⟨rfl, rfl⟩ := EStateM.Result.ok.inj h
    exact ⟨by simp [advance, hr], rfl⟩

/-- Reading a byte is local. -/
theorem isLocal_byte : IsLocal byte := by
  intro i b i' h
  obtain ⟨hr, hd⟩ := byte_eq_ok h
  exact ⟨[b], hr, hd, takes_byte b⟩

/-- Reading a byte fails at the end only, and moves nowhere. -/
theorem byte_eq_error_iff {i i' : Input} {e : Error} :
    byte i = .error e i' ↔ i.rest = [] ∧ e = .byteMissing ∧ i' = i := by
  simp only [byte]
  split
  · next hr => simp [hr, eq_comm]
  · next hr => simp [hr]

/-- As many bytes as there are in a segment are read as that segment. -/
theorem takes_raw (bs : Bytes) : Takes (raw bs.length) bs bs := by
  refine takes_advance fun i rest hr => ?_
  have hn : bs.length ≤ i.left := by simp [left, hr]
  refine ⟨hn, ?_⟩
  simp only [raw, hn, dite_true, hr, List.take_left]

/-- Bytes that were read stood in front, as many as were asked for. -/
theorem raw_eq_ok {n : Nat} {i i' : Input} {bs : Bytes} (h : raw n i = .ok bs i') :
    i.rest = bs ++ i'.rest ∧ bs.length = n ∧ i'.data = i.data := by
  simp only [raw] at h
  split at h
  · next hn =>
    obtain ⟨rfl, rfl⟩ := EStateM.Result.ok.inj h
    exact ⟨(List.take_append_drop n i.rest).symm, List.length_take_of_le hn, rfl⟩
  · cases h

/-- Reading a number of bytes is local. -/
theorem isLocal_raw (n : Nat) : IsLocal (raw n) := by
  intro i bs i' h
  obtain ⟨hr, hlen, hd⟩ := raw_eq_ok h
  exact ⟨bs, hr, hd, hlen ▸ takes_raw bs⟩

/-- Bytes cannot be read exactly if fewer than those are left. -/
theorem raw_eq_error_iff {n : Nat} {i i' : Input} {e : Error} :
    raw n i = .error e i' ↔ i.left < n ∧ e = .bytesMissing n i.pos i.left ∧ i' = i := by
  simp only [raw]
  split
  · next hn => simp [Nat.not_lt.mpr hn]
  · next hn => simp [Nat.lt_of_not_le hn, eq_comm]

/-- A number of fixed width is read from its bytes, the lowest first. -/
theorem takes_fixed {width : Nat} {bs : Bytes} (h : bs.length = width) :
    Takes (fixed width) bs (Bytes.ofLittleEndian bs) := by
  subst h
  exact (takes_raw bs).bind_pure Bytes.ofLittleEndian

/-- Reading a number of fixed width is local. -/
theorem isLocal_fixed (width : Nat) : IsLocal (fixed width) :=
  (isLocal_raw width).bind fun bs => .pure (Bytes.ofLittleEndian bs)

/-- Four bytes are read as a word. -/
theorem takes_fixed32 {bs : Bytes} (h : bs.length = 4) :
    Takes fixed32 bs (UInt32.ofNat (Bytes.ofLittleEndian bs)) :=
  (takes_fixed h).bind_pure UInt32.ofNat

/-- Reading a word is local. -/
theorem isLocal_fixed32 : IsLocal fixed32 :=
  (isLocal_fixed 4).bind fun n => .pure (UInt32.ofNat n)

/-- A word that was read stood in front as four bytes. -/
theorem fixed32_eq_ok {i i' : Input} {v : UInt32} (h : fixed32 i = .ok v i') :
    ∃ ls, i.rest = ls ++ i'.rest ∧ ls.length = 4 ∧ v = UInt32.ofNat (Bytes.ofLittleEndian ls) := by
  obtain ⟨n, i₁, hfixed, h⟩ := Action.bind_eq_ok_iff.mp h
  obtain ⟨ls, i₂, hraw, hn⟩ := Action.bind_eq_ok_iff.mp hfixed
  obtain ⟨rfl, rfl⟩ := EStateM.Result.ok.inj h
  obtain ⟨rfl, rfl⟩ := EStateM.Result.ok.inj hn
  obtain ⟨hr, hlength, -⟩ := raw_eq_ok hraw
  exact ⟨ls, hr, hlength, rfl⟩

/-- Eight bytes are read as a long word. -/
theorem takes_fixed64 {bs : Bytes} (h : bs.length = 8) :
    Takes fixed64 bs (UInt64.ofNat (Bytes.ofLittleEndian bs)) :=
  (takes_fixed h).bind_pure UInt64.ofNat

/-- Reading a long word is local. -/
theorem isLocal_fixed64 : IsLocal fixed64 :=
  (isLocal_fixed 8).bind fun n => .pure (UInt64.ofNat n)

end Input

/-! ## Numbers of variable length -/

namespace Varint

/-- Every number, zero too, takes a byte. -/
theorem encodeNat_ne_nil (n : Nat) : encodeNat n ≠ [] := by
  rw [encodeNat]
  split <;> exact List.cons_ne_nil _ _

/-- No word is written as nothing. -/
theorem length_encode_pos (v : UInt32) : 0 < (encode v).length :=
  List.length_pos_iff.mpr (encodeNat_ne_nil _)

/-- Seven bits more are a factor of 128. -/
theorem one_shiftLeft_succ (k : Nat) : 1 <<< (7 * (k + 1)) = 128 * 1 <<< (7 * k) := by
  rw [Nat.one_shiftLeft, Nat.one_shiftLeft, Nat.mul_succ, Nat.pow_add, Nat.mul_comm]

/-- A number takes a byte for each seven of its bits. -/
theorem length_encodeNat {k n : Nat} (hlow : k = 0 ∨ 1 <<< (7 * k) ≤ n)
    (hhigh : n < 1 <<< (7 * (k + 1))) : (encodeNat n).length = k + 1 := by
  -- Induction on the number of bytes behind the first.
  induction k generalizing n with
  | zero =>
    have hbyte : n < 128 := hhigh
    rw [encodeNat, if_pos hbyte]
    rfl
  | succ k ih =>
    have hge : 1 <<< (7 * (k + 1)) ≤ n := hlow.resolve_left (Nat.succ_ne_zero k)
    rw [one_shiftLeft_succ] at hge hhigh
    have hpos : 0 < 1 <<< (7 * k) := by
      rw [Nat.one_shiftLeft]
      exact Nat.two_pow_pos _
    have hbyte : ¬ n < 128 := by omega
    -- The first byte takes seven bits off.
    have hlow' : 1 <<< (7 * k) ≤ n / 128 := by omega
    have hhigh' : n / 128 < 1 <<< (7 * (k + 1)) := by omega
    rw [encodeNat, if_neg hbyte, List.length_cons, ih (.inr hlow') hhigh']

/-- The length that is foretold for a word is the one that its bytes have. -/
theorem length_encode (v : UInt32) : (encode v).length = length v := by
  have hv := v.toNat_lt
  rw [encode, length]
  simp only [UInt32.lt_iff_toNat_lt]
  -- The bounds of the five lengths are the powers of two at multiples of seven bits.
  split
  · next h => exact length_encodeNat (k := 0) (.inl rfl) h
  split
  · next h₁ h₂ => exact length_encodeNat (k := 1) (.inr (Nat.le_of_not_lt h₁)) h₂
  split
  · next h₂ h₃ => exact length_encodeNat (k := 2) (.inr (Nat.le_of_not_lt h₂)) h₃
  split
  · next h₃ h₄ => exact length_encodeNat (k := 3) (.inr (Nat.le_of_not_lt h₃)) h₄
  · next h₄ => exact length_encodeNat (k := 4) (.inr (Nat.le_of_not_lt h₄)) (by omega)

/-- A number written from the bit at `7 * k` on is read into what was gathered below it. -/
theorem decodeFrom_encodeNat {k n : Nat} (hn : n < 1 <<< (35 - 7 * k)) (hk : k ≤ 4)
    (value used : Nat) (rest : Bytes) :
    decodeFrom (7 * k) value used (encodeNat n ++ rest) =
      .ok (UInt32.ofNat (value + n <<< (7 * k)), used + (encodeNat n).length) := by
  -- Induction on the number, as every byte but the last takes seven bits of it.
  induction n using Nat.strongRecOn generalizing k value used with
  | ind n ih =>
    rw [encodeNat]
    split
    · next hlt =>
      -- The last byte has the number itself.
      have hb : (UInt8.ofNat n).toNat = n := by
        rw [UInt8.toNat_ofNat']
        omega
      have hlast : UInt8.ofNat n < 128 := UInt8.lt_iff_toNat_lt.mpr (by rw [hb]; exact hlt)
      simp only [List.cons_append, List.nil_append, decodeFrom, hlast, if_true, hb,
        Nat.mod_eq_of_lt hlt, List.length_singleton]
    · next hge =>
      -- There is a byte behind this one, so this is not yet the fifth.
      have hk' : k ≤ 3 := by
        rcases Nat.lt_or_ge k 4 with h | h
        · omega
        · obtain rfl : k = 4 := by omega
          omega
      have hb : (UInt8.ofNat (n % 128 + 128)).toNat = n % 128 + 128 := by
        rw [UInt8.toNat_ofNat']
        omega
      have hb' : ¬ UInt8.ofNat (n % 128 + 128) < 128 := by
        rw [UInt8.lt_iff_toNat_lt, hb]
        simp
      have hshift : ¬ 28 < 7 * k + 7 := by omega
      have hdiv : n / 128 < 1 <<< (35 - 7 * (k + 1)) := by
        rw [Nat.one_shiftLeft] at hn ⊢
        rw [Nat.div_lt_iff_lt_mul (by decide), show (128 : Nat) = 2 ^ 7 from rfl, ← Nat.pow_add]
        rwa [show 35 - 7 * (k + 1) + 7 = 35 - 7 * k by omega]
      -- The bits of this byte and those behind it make up the number.
      have hsum : value + (n % 128) <<< (7 * k) + (n / 128) <<< (7 * (k + 1)) =
          value + n <<< (7 * k) := by
        simp only [Nat.shiftLeft_eq]
        have hsplit : n * 2 ^ (7 * k) = (n % 128 + 128 * (n / 128)) * 2 ^ (7 * k) := by
          rw [Nat.mod_add_div]
        rw [hsplit, show 7 * (k + 1) = 7 + 7 * k by omega, Nat.pow_add, Nat.add_mul,
          show (2 : Nat) ^ 7 = 128 from rfl, ← Nat.mul_assoc, Nat.mul_comm 128 (n / 128)]
        omega
      have hread := ih (n / 128) (by omega) hdiv (by omega)
        (value + (n % 128) <<< (7 * k)) (used + 1)
      simp only [List.cons_append, decodeFrom, hb', if_false, hb, gt_iff_lt, hshift,
        Nat.add_mod_right, Nat.mod_mod, List.length_cons]
      rw [show 7 * k + 7 = 7 * (k + 1) by omega, hread, hsum]
      simp only [Except.ok.injEq, Prod.mk.injEq, true_and]
      omega

/-- A word is read back from its bytes. -/
theorem decode_encode (v : UInt32) (rest : Bytes) :
    decode (encode v ++ rest) = .ok (v, (encode v).length) := by
  have hv : v.toNat < 1 <<< (35 - 7 * 0) := by
    have hlt := v.toNat_lt
    omega
  have hread := decodeFrom_encodeNat hv (Nat.zero_le 4) 0 0 rest
  simpa [decode, encode] using hread

/-- Reading a number fails for want of bytes or for too many bits, and for no other reason. -/
theorem decodeFrom_eq_error {shift value used : Nat} {bs : Bytes} {e : Error}
    (h : decodeFrom shift value used bs = .error e) : e = .varintCut ∨ e = .varintOverflow := by
  induction bs generalizing shift value used with
  | nil => exact .inl (Except.error.inj h).symm
  | cons b bs ih =>
    simp only [decodeFrom] at h
    split at h
    · cases h
    · split at h
      · exact .inr (Except.error.inj h).symm
      · exact ih h

/-- A number is cut off or has too many bytes. -/
theorem decode_eq_error {bs : Bytes} {e : Error} (h : decode bs = .error e) :
    e = .varintCut ∨ e = .varintOverflow := decodeFrom_eq_error h

/-- Reading looks at no byte behind those it takes. -/
theorem decodeFrom_take {shift value used : Nat} {bs : Bytes} {v : UInt32} {n : Nat}
    (h : decodeFrom shift value used bs = .ok (v, n)) (rest : Bytes) :
    decodeFrom shift value used (bs.take (n - used) ++ rest) = .ok (v, n) := by
  -- Induction on the bytes, as every byte is looked at once.
  induction bs generalizing shift value used with
  | nil => cases h
  | cons b bs ih =>
    have hused := decodeFrom_used h
    -- The first byte is among those taken.
    obtain ⟨m, hm⟩ : ∃ m, n - used = m + 1 := ⟨n - used - 1, by omega⟩
    rw [hm, List.take_succ_cons, List.cons_append]
    simp only [decodeFrom] at h ⊢
    split at h
    · next hb => rw [if_pos hb, h]
    · next hb =>
      rw [if_neg hb]
      split at h
      · cases h
      · next hs =>
        rw [if_neg hs, show m = n - (used + 1) by omega]
        exact ih h

/-- Whatever follows the bytes that were taken for a number, the number stays the same. -/
theorem decode_take {bs : Bytes} {v : UInt32} {n : Nat} (h : decode bs = .ok (v, n))
    (rest : Bytes) : decode (bs.take n ++ rest) = .ok (v, n) :=
  decodeFrom_take h rest

end Varint

namespace Input

/-- What decodes to a word, down to its last byte, is taken for that word. -/
theorem takes_varint_of_decode {bs : Bytes} {v : UInt32}
    (h : Varint.decode bs = .ok (v, bs.length)) : Takes varint bs v := by
  refine takes_advance fun i rest hr => ⟨by simp [left, hr], ?_⟩
  have hdecode := Varint.decode_take h rest
  rw [List.take_length, ← hr] at hdecode
  -- The bytes behind the segment do not change what is decoded.
  simp only [varint]
  split
  · next hd =>
    rw [hdecode] at hd
    simp only [Except.ok.injEq, Prod.mk.injEq] at hd
    obtain ⟨rfl, rfl⟩ := hd
    rfl
  · next hd =>
    rw [hdecode] at hd
    cases hd

/-- A word is read from what is written for it. -/
theorem takes_varint (v : UInt32) : Takes varint (Varint.encode v) v :=
  takes_varint_of_decode (by simpa using Varint.decode_encode v [])

/-- Reading a word fails as decoding the rest does, and moves nowhere. -/
theorem varint_eq_error_iff {i i' : Input} {e : Error} :
    varint i = .error e i' ↔ Varint.decode i.rest = .error e ∧ i' = i := by
  simp only [varint]
  split
  · next hd => simp [hd]
  · next hd => simp [hd, eq_comm]

/-- A word that was read stood in front, as bytes that decode to it. -/
theorem varint_eq_ok {i i' : Input} {v : UInt32} (h : varint i = .ok v i') :
    ∃ ds, i.rest = ds ++ i'.rest ∧ Varint.decode ds = .ok (v, ds.length) ∧ i'.data = i.data := by
  simp only [varint] at h
  split at h
  · next n hd =>
    obtain ⟨rfl, rfl⟩ := EStateM.Result.ok.inj h
    -- Cut off behind the bytes that were used, the rest decodes to the same word.
    have hn := (Varint.decode_used hd).2
    have htaken := Varint.decode_take hd []
    rw [List.append_nil] at htaken
    refine ⟨i.rest.take n, (List.take_append_drop n i.rest).symm, ?_, rfl⟩
    rw [htaken, List.length_take_of_le hn]
  · cases h

/-- Reading a word of variable length is local. -/
theorem isLocal_varint : IsLocal varint := by
  intro i v i' h
  obtain ⟨ds, hr, hdecode, hd⟩ := varint_eq_ok h
  exact ⟨ds, hr, hd, takes_varint_of_decode hdecode⟩

end Input

end XmlIndex
