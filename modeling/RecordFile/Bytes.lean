/-!
# Byte strings

Little-endian numbers, slices and zero runs of byte strings.

- `littleEndian width n` holds the last `width` digits of `n` in base 256, the last one first, and
  `littleEndianValue` reads such a string; writing what was read gives the string
  (`littleEndian_littleEndianValue`).
- `slice?` is the part of a string between two positions, if the string has it.
- `overwrite` replaces the bytes from a position on, where the string has them.
-/

namespace RecordFile

/-- The last `width` digits of `n` in base 256, the last one first. -/
def byteDigits : (width : Nat) → (n : Nat) → List UInt8
  | 0, _ => []
  | width + 1, n => UInt8.ofNat n :: byteDigits width (n / 256)

/-- The number with these digits in base 256, the last one first. -/
def byteDigitsValue : List UInt8 → Nat
  | [] => 0
  | b :: rest => b.toNat + 256 * byteDigitsValue rest

/-- The number `n` in `width` bytes, the lowest byte first. -/
def littleEndian (width n : Nat) : ByteArray :=
  (byteDigits width n).toByteArray

/-- The number a byte string holds, the lowest byte first. -/
def littleEndianValue (bytes : ByteArray) : Nat :=
  byteDigitsValue bytes.data.toList

/-- The `length` bytes from `start` on, if the string has them. -/
def slice? (bytes : ByteArray) (start length : Nat) : Option ByteArray :=
  if start + length ≤ bytes.size then some (bytes.extract start (start + length)) else none

/-- A run of zero bytes. -/
def zeros (length : Nat) : ByteArray :=
  ⟨Array.replicate length 0⟩

/-- The string with `data` in place of its bytes from `start` on. -/
def overwrite (bytes : ByteArray) (start : Nat) (data : ByteArray) : ByteArray :=
  data.copySlice 0 bytes start data.size

/-! ## Little-endian numbers -/

@[simp] theorem length_byteDigits (width n : Nat) : (byteDigits width n).length = width := by
  induction width generalizing n with
  | zero => rfl
  | succ width ih => simp [byteDigits, ih]

@[simp] theorem size_littleEndian (width n : Nat) : (littleEndian width n).size = width := by
  simp [littleEndian, List.size_toByteArray]

theorem byteDigits_byteDigitsValue (digits : List UInt8) :
    byteDigits digits.length (byteDigitsValue digits) = digits := by
  induction digits with
  | nil => rfl
  | cons b rest ih =>
    have hb := b.toNat_lt
    have hdiv : (b.toNat + 256 * byteDigitsValue rest) / 256 = byteDigitsValue rest := by omega
    simp only [List.length_cons, byteDigits, byteDigitsValue, hdiv, ih, List.cons.injEq, and_true]
    apply UInt8.toNat_inj.mp
    rw [UInt8.toNat_ofNat']
    omega

theorem littleEndian_littleEndianValue (bytes : ByteArray) :
    littleEndian bytes.size (littleEndianValue bytes) = bytes := by
  apply ByteArray.ext
  have h := byteDigits_byteDigitsValue bytes.data.toList
  simp only [Array.length_toList, ByteArray.size_data] at h
  simp [littleEndian, littleEndianValue, h]

/-! ## Slices, runs and overwriting -/

theorem slice?_eq_some_iff {bytes part : ByteArray} {start length : Nat} :
    slice? bytes start length = some part ↔
      start + length ≤ bytes.size ∧ bytes.extract start (start + length) = part := by
  unfold slice?
  split <;> grind

theorem size_of_slice? {bytes part : ByteArray} {start length : Nat}
    (h : slice? bytes start length = some part) : part.size = length := by
  obtain ⟨hle, rfl⟩ := slice?_eq_some_iff.mp h
  rw [ByteArray.size_extract]
  omega

@[simp] theorem size_zeros (length : Nat) : (zeros length).size = length := by
  simp [zeros, ByteArray.size]

theorem overwrite_eq {bytes data : ByteArray} {start : Nat} :
    overwrite bytes start data =
      bytes.extract 0 start ++ data ++ bytes.extract (start + data.size) bytes.size := by
  simp [overwrite, ByteArray.copySlice_eq_append]

theorem size_overwrite {bytes data : ByteArray} {start : Nat} (h : start + data.size ≤ bytes.size) :
    (overwrite bytes start data).size = bytes.size := by
  simp only [overwrite_eq, ByteArray.size_append, ByteArray.size_extract]
  omega

end RecordFile
