import XmlIndex.Proofs.ActionSteps
import XmlIndex.Proofs.SegmentReading

/-! # Input behind more bytes

The readers of the format go by the bytes behind the position.  What they come to is the same when
more bytes stand in front (`Input.Uniform`), except that a position, and an offset that an error
names, is counted from further in front (`Error.moved`). -/

namespace XmlIndex

/-- The error with the offset that it names moved on. -/
def Error.moved (n : Nat) : Error → Error
  | .bytesMissing need offset left => .bytesMissing need (n + offset) left
  | e => e

/-- No offset is named where a number is broken. -/
theorem Varint.moved_of_decode_eq_error {bs : Bytes} {e : Error} {n : Nat}
    (h : decode bs = .error e) : e.moved n = e := by
  rcases decode_eq_error h with rfl | rfl <;> rfl

namespace Input

variable {α β : Type}

/-- The input with more bytes in front of it. -/
def behind (front : Bytes) (i : Input) : Input where
  data := front ++ i.data
  pos := front.length + i.pos
  rest := i.rest
  rest_eq := by
    rw [List.drop_append, List.drop_of_length_le (Nat.le_add_right _ _), Nat.add_sub_cancel_left,
      List.nil_append, i.rest_eq]
  pos_le := by
    have hpos := i.pos_le
    rw [List.length_append]
    omega

/-- The bytes to come are the same. -/
@[simp] theorem rest_behind (front : Bytes) (i : Input) : (i.behind front).rest = i.rest := rfl

/-- Some bytes that follow others are those bytes alone, with the others in front. -/
theorem eq_behind_of_rest {i : Input} {front rest : Bytes} (hd : i.data = front ++ rest)
    (hr : i.rest = rest) : i = (ofBytes rest).behind front := eq_of_data_of_rest hd hr

/-- What was read, as it is with more bytes in front. -/
def moved (front : Bytes) : EStateM.Result Error Input α → EStateM.Result Error Input α
  | .ok a i => .ok a (i.behind front)
  | .error e i => .error (e.moved front.length) (i.behind front)

/-- The reader comes to the same with more bytes in front. -/
def Uniform (x : Reads α) : Prop := ∀ front i, x (i.behind front) = moved front (x i)

/-! ## Putting readers together -/

/-- An answer without reading is the same. -/
theorem Uniform.pure (a : α) : Uniform (pure a) := fun _ _ => rfl

/-- So is a failure that names no offset. -/
theorem Uniform.ofExcept {x : Except Error α} (h : ∀ n e, x = .error e → e.moved n = e) :
    Uniform (Action.ofExcept x) := by
  intro front i
  cases x with
  | ok a => rfl
  | error e =>
    show EStateM.Result.error e _ = .error (e.moved _) _
    rw [h _ e rfl]

/-- Readers that come to the same do so in sequence. -/
theorem Uniform.bind {x : Reads α} {f : α → Reads β} (hx : Uniform x) (hf : ∀ a, Uniform (f a)) :
    Uniform (x >>= f) := by
  intro front i
  have hfirst := hx front i
  -- Only if the first reader succeeds does the second one begin, at the same place in both.
  cases h : x i with
  | ok a i' =>
    rw [h] at hfirst
    rw [Action.bind_of_ok hfirst, Action.bind_of_ok h]
    exact hf a front i'
  | error e i' =>
    rw [h] at hfirst
    rw [Action.bind_of_error hfirst, Action.bind_of_error h]
    rfl

/-- A reader that goes by the bytes it takes comes to the same if it fails in the same way. -/
theorem IsLocal.uniform {x : Reads α} (hx : IsLocal x)
    (herror : ∀ front i e i', x i = .error e i' →
      x (i.behind front) = .error (e.moved front.length) (i'.behind front)) : Uniform x := by
  intro front i
  cases h : x i with
  -- What was taken is the same, and so is what is left.
  | ok a i' =>
    obtain ⟨bs, hr, hd, htakes⟩ := hx i a i' h
    obtain ⟨j, hj, hdata, hrest⟩ := htakes (i.behind front) i'.rest hr
    have hdata' : j.data = (i'.behind front).data := hdata.trans (congrArg (front ++ ·) hd).symm
    obtain rfl := eq_of_data_of_rest hdata' hrest
    exact hj
  | error e i' => exact herror front i e i' h

/-! ## Bytes, words and numbers -/

/-- Reading a byte comes to the same. -/
theorem uniform_byte : Uniform byte := by
  refine isLocal_byte.uniform fun front i e i' h => ?_
  obtain ⟨hr, rfl, rfl⟩ := byte_eq_error_iff.mp h
  exact byte_eq_error_iff.mpr ⟨hr, rfl, rfl⟩

/-- Reading bytes comes to the same. -/
theorem uniform_raw (n : Nat) : Uniform (raw n) := by
  refine (isLocal_raw n).uniform fun front i e i' h => ?_
  obtain ⟨hleft, rfl, rfl⟩ := raw_eq_error_iff.mp h
  exact raw_eq_error_iff.mpr ⟨hleft, rfl, rfl⟩

/-- Reading a number of fixed width comes to the same. -/
theorem uniform_fixed (width : Nat) : Uniform (fixed width) :=
  (uniform_raw width).bind fun _ => .pure _

/-- Reading a word comes to the same. -/
theorem uniform_fixed32 : Uniform fixed32 := (uniform_fixed 4).bind fun _ => .pure _

/-- Reading a number of variable length comes to the same. -/
theorem uniform_varint : Uniform varint := by
  refine isLocal_varint.uniform fun front i e i' h => ?_
  obtain ⟨hdecode, rfl⟩ := varint_eq_error_iff.mp h
  rw [Varint.moved_of_decode_eq_error hdecode]
  exact varint_eq_error_iff.mpr ⟨hdecode, rfl⟩

end Input

end XmlIndex
