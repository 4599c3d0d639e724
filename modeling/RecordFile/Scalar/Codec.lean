import RecordFile.Bytes
import RecordFile.Error

/-!
# The scalar codec

How a scalar lies in a file: a boolean is one byte, `0xff` for true and zero for false, and any
other byte reads as true; an integer is in two's complement and a floating point number is its
pattern, the lowest byte first.

`Scalar.encode` never truncates. An integer is accepted by every integer kind in whose range it
lies, and by a floating point kind that has it exactly; a finite number past the largest 32-bit
number is refused by that kind, while NaN and the infinities pass. `Scalar.decode` reads every byte
string that is long enough, and looks at the kind's width of it only.
-/

namespace RecordFile

namespace Scalar

/-- How many different byte strings have the width of the kind. -/
def span (k : Scalar) : Nat := 1 <<< (8 * k.width)

/-- The least integer of an integer kind. -/
def lowest (k : Scalar) : Int :=
  if k.isSigned then -(k.span / 2 : Nat) else 0

/-- The greatest integer of an integer kind. -/
def greatest (k : Scalar) : Int :=
  (if k.isSigned then k.span / 2 else k.span : Nat) - 1

/-- The refusal of a value of another form. -/
def mismatch (k : Scalar) (v : Value) : Error :=
  .formMismatch k.name v.form

/-- The bytes of an integer value in an integer kind. -/
def encodeInteger (k : Scalar) (v : Value) : Except Error ByteArray :=
  match v.integer? with
  | none => .error (k.mismatch v)
  | some n =>
    if k.lowest ≤ n ∧ n ≤ k.greatest then
      .ok (littleEndian k.width (n % k.span).toNat)
    else .error (.outOfRange k v)

/-- The number nearest to an integer among those of a floating point kind. -/
def nearest (k : Scalar) (n : Int) : Binary64 :=
  let x := Binary64.ofInt n
  if k = float32 then x.narrow.widen else x

/-- The floating point number that a value stands for in a floating point kind: an integer has to be
the exact value of the number nearest to it. -/
def floatOperand (k : Scalar) (v : Value) : Except Error Binary64 :=
  match v with
  | .float x => .ok x
  | v =>
    match v.integer? with
    | none => .error (k.mismatch v)
    | some n =>
      if (k.nearest n).toInt? = some n then .ok (k.nearest n) else .error (.outOfRange k v)

/-- The bytes of a value in the kind `k`, exactly `k.width` of them. -/
def encode (k : Scalar) (v : Value) : Except Error ByteArray :=
  match k with
  | boolean =>
    match v.toBool? with
    | none => .error (k.mismatch v)
    | some b => .ok (littleEndian 1 (if b then 0xff else 0))
  | float32 => do
    let x ← float32.floatOperand v
    if x.isFinite ∧ Binary32.largest.widen.magnitude < x.magnitude then
      .error (.outOfRange k v)
    else .ok (littleEndian 4 x.narrow.bits.toNat)
  | float64 => do
    let x ← float64.floatOperand v
    .ok (littleEndian 8 x.bits.toNat)
  | k => k.encodeInteger v

/-- The scalar that the digits `n` of `k.width` bytes stand for. -/
def ofDigits (k : Scalar) (n : Nat) : Value :=
  match k with
  | boolean => .bool (n != 0)
  | float32 => .float (Binary32.widen ⟨.ofNat n⟩)
  | float64 => .float ⟨.ofNat n⟩
  | k =>
    if k.isSigned then .int (.ofInt ((n : Int).bmod k.span)) else .uint (.ofNat n)

/-- The scalar in the first `k.width` bytes. -/
def decode (k : Scalar) (bytes : ByteArray) : Except Error Value :=
  if bytes.size < k.width then .error (.corrupted (.shortScalar k bytes.size))
  else .ok (k.ofDigits (littleEndianValue (bytes.extract 0 k.width)))

theorem decode_of_le {k : Scalar} {bytes : ByteArray} (h : k.width ≤ bytes.size) :
    k.decode bytes = .ok (k.ofDigits (littleEndianValue (bytes.extract 0 k.width))) :=
  if_neg (Nat.not_lt_of_le h)

/-- A scalar is decoded from all of its bytes. -/
theorem decode_of_size {k : Scalar} {bytes : ByteArray} (h : bytes.size = k.width) :
    k.decode bytes = .ok (k.ofDigits (littleEndianValue bytes)) := by
  rw [decode_of_le (Nat.le_of_eq h.symm), ← h, ByteArray.extract_zero_size]

end Scalar

end RecordFile
