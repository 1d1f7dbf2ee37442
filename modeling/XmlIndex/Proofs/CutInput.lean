import XmlIndex.Proofs.BlockFraming

/-! # Input that is cut off

What a reader of the format takes cannot be read where it is cut off (`Input.Takes.error_of_cut`).
It cannot be answered, since a local reader would answer the same for all of it and leave what was
cut off.  And no failure is due to a cut but one that says that the bytes are malformed: any other
stays a failure when the missing bytes follow (`Input.FaultsStay`), where in fact the reader
succeeds. -/

namespace XmlIndex

namespace Input

variable {α β : Type}

/-- A failure says that the bytes are malformed, or the reader fails with more bytes as well. -/
def FaultsStay (x : Reads α) : Prop :=
  ∀ i e i', x i = .error e i' → e.kind = .malformedStream ∨
    ∀ j more, j.rest = i.rest ++ more → ∃ e' j', x j = .error e' j'

/-- A part of what a reader takes is malformed. -/
theorem Takes.error_of_cut {x : Reads α} {bs : Bytes} {a : α} (h : Takes x bs a)
    (hlocal : IsLocal x) (hstay : FaultsStay x) {i : Input} {n : Nat} (hr : i.rest = bs.take n)
    (hn : n < bs.length) : ∃ e i', x i = .error e i' ∧ e.kind = .malformedStream := by
  obtain ⟨j', hwhole, -, hleft⟩ := h (.ofBytes bs) [] (List.append_nil bs).symm
  have hjoined : (ofBytes bs).rest = i.rest ++ bs.drop n := by
    rw [hr, List.take_append_drop]
    rfl
  cases hx : x i with
  | ok b i' =>
    obtain ⟨cs, hcs, -, htakes⟩ := hlocal i b i' hx
    rw [hcs, List.append_assoc] at hjoined
    obtain ⟨j'', hread, -, hleft'⟩ := htakes (.ofBytes bs) _ hjoined
    -- What was cut off would have been left.
    obtain ⟨-, rfl⟩ := EStateM.Result.ok.inj (hwhole.symm.trans hread)
    have hlength := congrArg List.length (hleft'.symm.trans hleft)
    rw [List.length_append, List.length_drop, List.length_nil] at hlength
    omega
  | error e i' =>
    refine ⟨e, i', rfl, (hstay i e i' hx).resolve_right fun hstays => ?_⟩
    obtain ⟨e', j, hfails⟩ := hstays (.ofBytes bs) (bs.drop n) hjoined
    cases hwhole.symm.trans hfails

/-! ## Putting readers together -/

/-- An answer without reading does not fail. -/
theorem FaultsStay.pure (a : α) : FaultsStay (pure a) := by
  intro i e i' h
  cases h

/-- A failure that was there before reading stays one. -/
theorem FaultsStay.ofExcept (x : Except Error α) : FaultsStay (Action.ofExcept x) := by
  intro i e i' h
  obtain ⟨rfl, -⟩ := Action.ofExcept_eq_error_iff.mp h
  exact .inr fun j _ _ => ⟨e, j, rfl⟩

/-- Faults stay in a sequence of readers, if they stay in each. -/
theorem FaultsStay.bind {x : Reads α} {f : α → Reads β} (hx : FaultsStay x) (hlocal : IsLocal x)
    (hf : ∀ a, FaultsStay (f a)) : FaultsStay (x >>= f) := by
  intro i e i'' h
  rcases Action.bind_eq_error_iff.mp h with h | ⟨a, i', hok, h⟩
  -- The first part fails, and does so with more bytes.
  · refine (hx i e i'' h).imp_right fun hstays j more hj => ?_
    obtain ⟨e', j', hfails⟩ := hstays j more hj
    exact ⟨e', j', Action.bind_eq_error_iff.mpr (.inl hfails)⟩
  · -- The first part takes the same bytes, and the second fails behind them.
    obtain ⟨bs, hr, -, htakes⟩ := hlocal i a i' hok
    refine (hf a i' e i'' h).imp_right fun hstays j more hj => ?_
    rw [hr, List.append_assoc] at hj
    obtain ⟨j', hok', -, hr'⟩ := htakes j _ hj
    obtain ⟨e', j'', hfails⟩ := hstays j' more hr'
    exact ⟨e', j'', Action.bind_eq_error_iff.mpr (.inr ⟨a, j', hok', hfails⟩)⟩

/-- Faults stay in a reader that fails just where another one does. -/
theorem FaultsStay.of_error_iff {x : Reads α} {y : Reads β} (hx : FaultsStay x)
    (h : ∀ {i e i'}, y i = .error e i' ↔ x i = .error e i') : FaultsStay y := by
  intro i e i' hy
  refine (hx i e i' (h.mp hy)).imp_right fun hstays j more hj => ?_
  obtain ⟨e', j', hfails⟩ := hstays j more hj
  exact ⟨e', j', h.mpr hfails⟩

/-! ## Bytes, words and numbers -/

/-- Reading a byte fails only for want of it. -/
theorem faultsStay_byte : FaultsStay byte := by
  intro i e i' h
  obtain ⟨-, rfl, -⟩ := byte_eq_error_iff.mp h
  exact .inl rfl

/-- Reading bytes fails only for want of them. -/
theorem faultsStay_raw (n : Nat) : FaultsStay (raw n) := by
  intro i e i' h
  obtain ⟨-, rfl, -⟩ := raw_eq_error_iff.mp h
  exact .inl rfl

/-- Reading a number of fixed width fails only for want of bytes. -/
theorem faultsStay_fixed (width : Nat) : FaultsStay (fixed width) :=
  (faultsStay_raw width).bind (isLocal_raw width) fun _ => .pure _

/-- Reading a word fails only for want of bytes. -/
theorem faultsStay_fixed32 : FaultsStay fixed32 :=
  (faultsStay_fixed 4).bind (isLocal_fixed 4) fun _ => .pure _

/-- Reading a long word fails only for want of bytes. -/
theorem faultsStay_fixed64 : FaultsStay fixed64 :=
  (faultsStay_fixed 8).bind (isLocal_fixed 8) fun _ => .pure _

end Input

/-- A number with too many bytes has too many whatever follows. -/
theorem Varint.decodeFrom_append_of_overflow {shift value used : Nat} {bs : Bytes}
    (h : decodeFrom shift value used bs = .error .varintOverflow) (more : Bytes) :
    decodeFrom shift value used (bs ++ more) = .error .varintOverflow := by
  -- Induction on the bytes: the number is too long by the same byte.
  induction bs generalizing shift value used with
  | nil => cases h
  | cons b bs ih =>
    simp only [List.cons_append, decodeFrom] at h ⊢
    split at h
    · cases h
    · next hb =>
      rw [if_neg hb]
      split at h
      · next hshift => rw [if_pos hshift]
      · next hshift =>
        rw [if_neg hshift]
        exact ih h

namespace Input

/-- A number of variable length is cut off, or too long with whatever follows. -/
theorem faultsStay_varint : FaultsStay varint := by
  intro i e i' h
  obtain ⟨hdecode, -⟩ := varint_eq_error_iff.mp h
  rcases Varint.decode_eq_error hdecode with rfl | rfl
  · exact .inl rfl
  · refine .inr fun j more hj => ⟨.varintOverflow, j, varint_eq_error_iff.mpr ⟨?_, rfl⟩⟩
    rw [hj]
    exact Varint.decodeFrom_append_of_overflow hdecode more

end Input

open Input

/-! ## Node ids, entries and bodies -/

/-- Faults in ordinals stay. -/
theorem NodeId.faultsStay_readLevels (count : Nat) : FaultsStay (readLevels count) := by
  induction count with
  | zero => exact FaultsStay.pure []
  | succ count ih =>
    refine faultsStay_varint.bind isLocal_varint fun level => ?_
    -- A zero is a fault wherever the input is cut behind it.
    by_cases h : level = 0
    · simp only [h, if_true]
      exact FaultsStay.ofExcept (.error .levelZero)
    · simp only [h, if_false]
      exact ih.bind (isLocal_readLevels count) fun _ => .pure _

/-- Faults in an id with a known count stay. -/
theorem NodeId.faultsStay_readCounted (count : Nat) : FaultsStay (readCounted count) := by
  have hlevels : FaultsStay (NodeId.mk <$> readLevels count) :=
    (faultsStay_readLevels count).of_error_iff Action.map_eq_error_iff
  intro i e i' h
  rw [readCounted] at h
  split at h
  -- More levels are declared than bytes are left, which is malformed.
  · obtain ⟨rfl, -⟩ := EStateM.Result.error.inj h
    exact .inl rfl
  · refine (hlevels i e i' h).imp_right fun hstays j more hj => ?_
    rw [readCounted]
    split
    · exact ⟨_, _, rfl⟩
    · exact hstays j more hj

/-- Faults in an id stay. -/
theorem NodeId.faultsStay_read : FaultsStay read :=
  faultsStay_varint.bind isLocal_varint fun count => faultsStay_readCounted count.toNat

/-- Faults in an entry stay. -/
theorem Entry.faultsStay_read? : FaultsStay read? := by
  refine NodeId.faultsStay_read.bind NodeId.isLocal_read fun node => ?_
  cases node.isEnd with
  | true => exact FaultsStay.pure none
  | false => exact faultsStay_fixed64.bind isLocal_fixed64 fun _ => .pure _

/-- Faults in a body stay. -/
theorem Entry.faultsStay_readAll : FaultsStay readAll := by
  intro i
  -- Induction on what is left: the body fails at this entry or at a later one.
  induction hleft : i.left using Nat.strongRecOn generalizing i with
  | ind n ih =>
    intro e i' h
    rcases readAll_eq_error_iff.mp h with h | ⟨entry, i₁, hread, h⟩
    · refine (faultsStay_read? i e i' h).imp_right fun hstays j more hj => ?_
      obtain ⟨e', j', hfails⟩ := hstays j more hj
      exact ⟨e', j', readAll_eq_error_iff.mpr (.inl hfails)⟩
    -- The entry is read again from the longer input, and the rest fails there.
    · have hless := read?_left hread
      refine (ih i₁.left (by omega) i₁ rfl e i' h).imp_right fun hstays j more hj => ?_
      obtain ⟨bs, hr, -, htakes⟩ := isLocal_read? i _ i₁ hread
      rw [hr, List.append_assoc] at hj
      obtain ⟨j₁, hread', -, hr'⟩ := htakes j _ hj
      obtain ⟨e', j', hfails⟩ := hstays j₁ more hr'
      exact ⟨e', j', readAll_eq_error_iff.mpr (.inr ⟨entry, j₁, hread', hfails⟩)⟩

/-! ## Blocks -/

/-- Faults in the parts of a block stay. -/
theorem Block.faultsStay_readParts : FaultsStay readParts :=
  faultsStay_varint.bind isLocal_varint fun _ => faultsStay_byte.bind isLocal_byte fun _ =>
    (FaultsStay.ofExcept _).bind (isLocal_ofExcept _) fun _ =>
      faultsStay_varint.bind isLocal_varint fun _ =>
        faultsStay_fixed32.bind isLocal_fixed32 fun _ =>
          (faultsStay_raw _).bind (isLocal_raw _) fun _ => .pure _

/-- Faults in a block stay. -/
theorem Block.faultsStay_read : FaultsStay read :=
  faultsStay_readParts.of_error_iff read_eq_error_iff

end XmlIndex
