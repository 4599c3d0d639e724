import Mathlib
import RecordFile.Bytes

/-!
# Ranges of little-endian numbers

The numbers that fit into `width` bytes are those below `256 ^ width`: reading `width` bytes gives
such a number, and writing such a number and reading it back gives it again.
-/

namespace RecordFile

theorem byteDigitsValue_lt (digits : List UInt8) :
    byteDigitsValue digits < 256 ^ digits.length := by
  induction digits with
  | nil => simp [byteDigitsValue]
  | cons b rest ih =>
    have hb := b.toNat_lt
    simp only [byteDigitsValue, List.length_cons, Nat.pow_succ]
    omega

theorem byteDigitsValue_byteDigits (width n : Nat) :
    byteDigitsValue (byteDigits width n) = n % 256 ^ width := by
  induction width generalizing n with
  | zero => simp [byteDigits, byteDigitsValue, Nat.mod_one]
  | succ width ih =>
    have hpow : 256 ^ (width + 1) = 256 * 256 ^ width := by rw [Nat.pow_succ, Nat.mul_comm]
    simp only [byteDigits, byteDigitsValue, ih, UInt8.toNat_ofNat', hpow, Nat.mod_mul]

theorem littleEndianValue_lt (bytes : ByteArray) :
    littleEndianValue bytes < 256 ^ bytes.size := by
  simpa [littleEndianValue] using byteDigitsValue_lt bytes.data.toList

theorem littleEndianValue_littleEndian {width n : Nat} (h : n < 256 ^ width) :
    littleEndianValue (littleEndian width n) = n := by
  simp [littleEndianValue, littleEndian, byteDigitsValue_byteDigits, Nat.mod_eq_of_lt h]

end RecordFile
