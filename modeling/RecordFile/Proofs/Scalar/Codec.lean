import RecordFile.Bytes.Lemmas
import RecordFile.Proofs.Number.Binary
import RecordFile.Scalar.Codec

/-!
# Encoding what was decoded

An encoded scalar has the width of its kind. Its digits, decoded and encoded again, come out as they
were (`Scalar.encode_ofDigits`): every integer kind has all numbers of its width, booleans are only ever
encoded as two of theirs (`Scalar.Holds`), and of the floating point numbers only a narrow NaN may
change on its way.
-/

namespace RecordFile

namespace Scalar

variable {kind : Scalar} {v : Value} {n : Nat}

/-- An encoded scalar has the width of its kind. -/
theorem size_of_encode {kind : Scalar} {v : Value} {bytes : ByteArray}
    (h : kind.encode v = .ok bytes) : bytes.size = kind.width := by
  have hinteger (k : Scalar) (h : k.encodeInteger v = .ok bytes) : bytes.size = k.width := by
    rw [encodeInteger] at h
    split at h
    · cases h
    · split at h
      · cases h
        exact size_littleEndian ..
      · cases h
  cases kind with
  | boolean =>
    rw [encode] at h
    split at h
    · cases h
    · cases h
      exact size_littleEndian ..
  | float32 =>
    rw [encode] at h
    cases hx : float32.floatOperand v with
    | error e => simp [hx, bind, Except.bind] at h
    | ok x =>
      simp only [hx, bind, Except.bind] at h
      split at h
      · cases h
      · cases h
        exact size_littleEndian ..
  | float64 =>
    rw [encode] at h
    cases hx : float64.floatOperand v with
    | error e => simp [hx, bind, Except.bind] at h
    | ok x =>
      simp only [hx, bind, Except.bind] at h
      cases h
      exact size_littleEndian ..
  | int8 => exact hinteger int8 h
  | int16 => exact hinteger int16 h
  | int32 => exact hinteger int32 h
  | int64 => exact hinteger int64 h
  | uint8 => exact hinteger uint8 h
  | uint16 => exact hinteger uint16 h
  | uint32 => exact hinteger uint32 h
  | uint64 => exact hinteger uint64 h

/-- The digits are those of an encoded value. -/
def Holds (kind : Scalar) (n : Nat) : Prop :=
  ∃ v bytes, kind.encode v = .ok bytes ∧ littleEndianValue bytes = n

theorem Holds.lt (h : kind.Holds n) : n < 256 ^ kind.width := by
  obtain ⟨v, bytes, hbytes, rfl⟩ := h
  exact size_of_encode hbytes ▸ littleEndianValue_lt bytes

/-- A boolean is encoded as zero or as `0xff`. -/
theorem Holds.eq_of_boolean (h : kind.Holds n) (hkind : kind = boolean) : n = 0 ∨ n = 0xff := by
  obtain ⟨v, bytes, hbytes, rfl⟩ := h
  rw [hkind, encode] at hbytes
  split at hbytes
  · cases hbytes
  · obtain rfl := Except.ok.inj hbytes
    split <;> decide

/-- Digits that were written are decoded. -/
theorem decode_littleEndian (hn : n < 256 ^ kind.width) :
    kind.decode (littleEndian kind.width n) = .ok (kind.ofDigits n) := by
  rw [decode_of_size (size_littleEndian ..), littleEndianValue_littleEndian hn]

/-! ## Integers -/

theorem span_eq (kind : Scalar) : kind.span = 256 ^ kind.width := by
  cases kind <;> rfl

/-- An integer in the range of the kind is encoded as its digits. -/
theorem encodeInteger_eq {m : Int} (hv : v.integer? = some m) (hle : kind.lowest ≤ m)
    (hge : m ≤ kind.greatest) (hmod : m % kind.span = n) :
    kind.encodeInteger v = .ok (littleEndian kind.width n) := by
  rw [encodeInteger, hv]
  simp only [hle, hge, and_self, if_true, hmod, Int.toNat_natCast]

theorem encodeInteger_unsigned (hkind : kind.isSigned = false) (hn : n < 256 ^ kind.width) :
    kind.encodeInteger (.uint (.ofNat n)) = .ok (littleEndian kind.width n) := by
  have hword : n < UInt64.size :=
    Nat.lt_of_lt_of_le hn (Nat.pow_le_pow_right (by decide) kind.width_le)
  have hvalue : (Value.uint (.ofNat n)).integer? = some (n : Int) :=
    congrArg (fun m : Nat => some (m : Int)) (UInt64.toNat_ofNat_of_lt hword)
  rw [← kind.span_eq] at hn
  refine encodeInteger_eq hvalue ?_ ?_ ?_
  · simp [lowest, hkind]
  · simp only [greatest, hkind, Bool.false_eq_true, if_false]
    omega
  · exact Int.emod_eq_of_lt (by omega) (by omega)

theorem encodeInteger_signed (hkind : kind.isSigned = true) (hn : n < 256 ^ kind.width) :
    kind.encodeInteger (.int (.ofInt ((n : Int).bmod kind.span))) =
      .ok (littleEndian kind.width n) := by
  have hspan : 0 < kind.span ∧ kind.span = 2 * (kind.span / 2) ∧ kind.span / 2 ≤ 2 ^ 63 := by
    cases kind <;> decide
  obtain ⟨hpos, heven, hword⟩ := hspan
  have hlow := @Int.le_bmod n kind.span hpos
  have hhigh := @Int.bmod_lt n kind.span hpos
  have hvalue : (Value.int (.ofInt ((n : Int).bmod kind.span))).integer? =
      some ((n : Int).bmod kind.span) :=
    congrArg some (Int64.toInt_ofInt_of_le (by omega) (by omega))
  rw [← kind.span_eq] at hn
  refine encodeInteger_eq hvalue ?_ ?_ ?_
  · simp only [lowest, hkind, if_true]
    omega
  · simp only [greatest, hkind, if_true]
    omega
  · rw [Int.bmod_emod]
    exact Int.emod_eq_of_lt (by omega) (by omega)

/-! ## All kinds -/

/-- Digits of the width, decoded and encoded again, come out as they were. -/
theorem encode_ofDigits (hn : n < 256 ^ kind.width) (hbool : kind = boolean → n = 0 ∨ n = 0xff)
    (hnan : kind = float32 → (⟨.ofNat n⟩ : Binary32).isNaN = false) :
    kind.encode (kind.ofDigits n) = .ok (littleEndian kind.width n) := by
  cases kind with
  | boolean =>
    rcases hbool rfl with rfl | rfl <;> rfl
  | float32 =>
    have hbits : (UInt32.ofNat n).toNat = n := UInt32.toNat_ofNat_of_lt hn
    have hnarrow := Binary32.narrow_widen (hnan rfl)
    have hfits : ¬ ((Binary32.widen ⟨.ofNat n⟩).isFinite = true ∧
        Binary32.largest.widen.magnitude < (Binary32.widen ⟨.ofNat n⟩).magnitude) := fun h =>
      Nat.not_le_of_lt h.2 (Binary32.widen_le (hnan rfl) h.1)
    simp only [ofDigits, encode, floatOperand, bind, Except.bind, if_neg hfits, hnarrow, hbits]
    rfl
  | float64 =>
    have hbits : (UInt64.ofNat n).toNat = n := UInt64.toNat_ofNat_of_lt hn
    simp only [ofDigits, encode, floatOperand, bind, Except.bind, hbits]
    rfl
  | int8 | int16 | int32 | int64 =>
    simp only [ofDigits, encode, isSigned, if_true]
    exact encodeInteger_signed rfl hn
  | uint8 | uint16 | uint32 | uint64 =>
    simp only [ofDigits, encode, isSigned, Bool.false_eq_true, if_false]
    exact encodeInteger_unsigned rfl hn

/-- Bytes of the width, decoded and encoded again, come out as they were. -/
theorem encode_littleEndianValue {bytes : ByteArray} (hsize : bytes.size = kind.width)
    (hbool : kind ≠ boolean)
    (hnan : kind = float32 → (⟨.ofNat (littleEndianValue bytes)⟩ : Binary32).isNaN = false) :
    kind.encode (kind.ofDigits (littleEndianValue bytes)) = .ok bytes := by
  have hlt := littleEndianValue_lt bytes
  rw [hsize] at hlt
  rw [encode_ofDigits hlt (fun h => absurd h hbool) hnan, ← hsize, littleEndian_littleEndianValue]

theorem holds_zero (kind : Scalar) : kind.Holds 0 := by
  have hpos : 0 < 256 ^ kind.width := Nat.pow_pos (by decide)
  refine ⟨kind.ofDigits 0, _, encode_ofDigits hpos (fun _ => .inl rfl) fun _ => ?_,
    littleEndianValue_littleEndian hpos⟩
  decide

end Scalar

end RecordFile
