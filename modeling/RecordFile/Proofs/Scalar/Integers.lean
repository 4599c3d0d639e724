import RecordFile.Proofs.Scalar.Codec

/-!
# Integers as scalars

An integer kind encodes just the integers in its range (`Scalar.InRange`), each in two's complement
and whichever of the two forms of integer values it is given in (`Value.IsInteger`), so nothing is
ever cut off. Decoding gives the integer in the form of the kind, and every byte string of the width
is the code of the integer that it stands for (`Scalar.encode_integers`).
-/

namespace RecordFile

/-! ## Integer values -/

/-- The value is the integer `n`, in either form. -/
inductive Value.IsInteger : Value → Int → Prop
  | int (m : Int64) : IsInteger (.int m) m.toInt
  | uint (m : UInt64) : IsInteger (.uint m) m.toNat

namespace Value

variable {v : Value} {n : Int}

theorem integer?_eq_some_iff : v.integer? = some n ↔ v.IsInteger n := by
  constructor
  · intro h
    cases v with
    | int m => exact Option.some.inj h ▸ .int m
    | uint m => exact Option.some.inj h ▸ .uint m
    | bool b => cases h
    | float x => cases h
    | record fields => cases h
    | array items => cases h
  · rintro (m | m) <;> rfl

theorem integer?_eq_none_iff : v.integer? = none ↔ ∀ n, ¬ v.IsInteger n := by
  simp only [← integer?_eq_some_iff, Option.eq_none_iff_forall_ne_some, ne_eq]

/-- Both forms are words. -/
theorem IsInteger.natAbs_lt (hv : v.IsInteger n) : n.natAbs < 2 ^ 64 := by
  cases hv with
  | int m =>
    have hlow := m.le_toInt
    have hhigh := m.toInt_lt
    omega
  | uint m =>
    have hlt := m.toNat_lt
    omega

end Value

namespace Scalar

variable {k : Scalar} {v : Value} {n : Int} {bytes : ByteArray}

/-! ## Ranges -/

/-- The kinds that hold integers. -/
def isInteger (k : Scalar) : Bool := k.isSigned || k.isUnsigned

/-- The integer has as many bits as the kind is wide, one of them for the sign if it is signed. -/
def InRange (k : Scalar) (n : Int) : Prop :=
  if k.isSigned then -2 ^ (8 * k.width - 1) ≤ n ∧ n < 2 ^ (8 * k.width - 1)
  else 0 ≤ n ∧ n < 2 ^ (8 * k.width)

instance (k : Scalar) (n : Int) : Decidable (k.InRange n) := by
  unfold InRange
  infer_instance

/-- The bytes of an integer in two's complement. -/
def twosComplement (k : Scalar) (n : Int) : ByteArray :=
  littleEndian k.width (n % 2 ^ (8 * k.width)).toNat

theorem two_pow_width (k : Scalar) : (2 : Int) ^ (8 * k.width) = k.span := by
  cases k <;> rfl

theorem lowest_eq (k : Scalar) :
    k.lowest = if k.isSigned then -2 ^ (8 * k.width - 1) else 0 := by
  cases k <;> rfl

theorem greatest_eq (k : Scalar) :
    k.greatest = (if k.isSigned then 2 ^ (8 * k.width - 1) else 2 ^ (8 * k.width)) - 1 := by
  cases k <;> rfl

theorem inRange_iff : k.InRange n ↔ k.lowest ≤ n ∧ n ≤ k.greatest := by
  rw [InRange, lowest_eq, greatest_eq, Int.le_sub_one_iff]
  split <;> rfl

theorem inRange_int64_iff : int64.InRange n ↔ -2 ^ 63 ≤ n ∧ n < 2 ^ 63 := Iff.rfl

theorem inRange_uint64_iff : uint64.InRange n ↔ 0 ≤ n ∧ n < 2 ^ 64 := Iff.rfl

/-! ## Encoding -/

theorem encode_of_isInteger (hk : k.isInteger = true) : k.encode v = k.encodeInteger v := by
  cases k <;> first | rfl | cases hk

theorem encodeInteger_of_inRange (hv : v.IsInteger n) (hn : k.InRange n) :
    k.encodeInteger v = .ok (k.twosComplement n) := by
  simp only [encodeInteger, Value.integer?_eq_some_iff.mpr hv, inRange_iff.mp hn, twosComplement,
    two_pow_width, and_self, if_true]

theorem encodeInteger_of_not_inRange (hv : v.IsInteger n) (hn : ¬ k.InRange n) :
    k.encodeInteger v = .error (.outOfRange k v) := by
  simp only [encodeInteger, Value.integer?_eq_some_iff.mpr hv, ← inRange_iff, if_neg hn]

theorem encodeInteger_of_not_integer (hv : ∀ n, ¬ v.IsInteger n) :
    k.encodeInteger v = .error (.formMismatch k.name v.form) := by
  rw [encodeInteger, Value.integer?_eq_none_iff.mpr hv]
  rfl

/-- What is encoded is an integer in range, and its code. -/
theorem encodeInteger_eq_ok_iff :
    k.encodeInteger v = .ok bytes ↔ ∃ n, v.IsInteger n ∧ k.InRange n ∧ k.twosComplement n = bytes := by
  constructor
  · intro h
    cases hv : v.integer? with
    | none => cases (encodeInteger_of_not_integer (Value.integer?_eq_none_iff.mp hv)).symm.trans h
    | some n =>
      replace hv := Value.integer?_eq_some_iff.mp hv
      by_cases hn : k.InRange n
      · exact ⟨n, hv, hn, Except.ok.inj ((encodeInteger_of_inRange hv hn).symm.trans h)⟩
      · cases (encodeInteger_of_not_inRange hv hn).symm.trans h
  · rintro ⟨n, hv, hn, rfl⟩
    exact encodeInteger_of_inRange hv hn

/-- The widest signed kind has the integers that are signed words. -/
theorem exists_encode_int64_iff :
    (∃ bytes, int64.encode v = .ok bytes) ↔ ∃ m, v.toInt64? = some m := by
  simp only [encode_of_isInteger (k := int64) rfl, encodeInteger_eq_ok_iff, inRange_int64_iff]
  constructor
  · rintro ⟨-, n, hv, hn, -⟩
    cases hv with
    | int m => exact ⟨m, rfl⟩
    | uint m => exact ⟨_, if_pos (Int.ofNat_lt.mp hn.2)⟩
  · rintro ⟨m, hm⟩
    cases v with
    | int m => exact ⟨_, _, .int m, ⟨m.le_toInt, m.toInt_lt⟩, rfl⟩
    | uint m =>
      rw [Value.toInt64?] at hm
      split at hm
      · rename_i hlt
        exact ⟨_, _, .uint m, ⟨by omega, Int.ofNat_lt.mpr hlt⟩, rfl⟩
      · cases hm
    | bool b => cases hm
    | float x => cases hm
    | record fields => cases hm
    | array items => cases hm

/-- The widest unsigned kind has the integers that are unsigned words. -/
theorem exists_encode_uint64_iff :
    (∃ bytes, uint64.encode v = .ok bytes) ↔ ∃ m, v.toUInt64? = some m := by
  simp only [encode_of_isInteger (k := uint64) rfl, encodeInteger_eq_ok_iff, inRange_uint64_iff]
  constructor
  · rintro ⟨-, n, hv, hn, -⟩
    cases hv with
    | int m => exact ⟨_, if_pos hn.1⟩
    | uint m => exact ⟨m, rfl⟩
  · rintro ⟨m, hm⟩
    cases v with
    | int m =>
      rw [Value.toUInt64?] at hm
      split at hm
      · have hlt := m.toInt_lt
        exact ⟨_, _, .int m, ⟨‹_›, by omega⟩, rfl⟩
      · cases hm
    | uint m => exact ⟨_, _, .uint m, ⟨Int.natCast_nonneg _, Int.ofNat_lt.mpr m.toNat_lt⟩, rfl⟩
    | bool b => cases hm
    | float x => cases hm
    | record fields => cases hm
    | array items => cases hm

/-! ## Decoding -/

/-- An integer in two's complement, read digit by digit. -/
theorem decode_twosComplement (k : Scalar) (n : Int) :
    k.decode (k.twosComplement n) = .ok (k.ofDigits (n % k.span).toNat) := by
  have hpos : (0 : Int) < k.span := by cases k <;> decide
  have hlt := Int.emod_lt_of_pos n hpos
  have hdigits : (n % k.span).toNat < 256 ^ k.width := by
    rw [← k.span_eq]
    omega
  rw [twosComplement, two_pow_width, decode_littleEndian hdigits]

theorem decode_of_isSigned (hk : k.isSigned = true) (hn : k.InRange n) :
    ∃ m : Int64, m.toInt = n ∧ k.decode (k.twosComplement n) = .ok (.int m) := by
  have hspan : 0 < k.span ∧ k.span = 2 * (k.span / 2) ∧ k.span / 2 ≤ 2 ^ 63 := by
    cases k <;> decide
  obtain ⟨hpos, heven, hword⟩ := hspan
  have hrange := inRange_iff.mp hn
  simp only [lowest, greatest, hk, if_true] at hrange
  have hsame : ((n % k.span).toNat : Int).bmod k.span = n := by
    rw [Int.toNat_of_nonneg (Int.emod_nonneg n (by omega)), Int.emod_bmod]
    exact Int.bmod_eq_of_le_mul_two (by omega) (by omega)
  have hdigits (m : Nat) : k.ofDigits m = .int (.ofInt ((m : Int).bmod k.span)) := by
    cases k <;> first | rfl | cases hk
  exact ⟨.ofInt n, Int64.toInt_ofInt_of_le (by omega) (by omega),
    by rw [decode_twosComplement, hdigits, hsame]⟩

theorem decode_of_isUnsigned (hk : k.isUnsigned = true) (hn : k.InRange n) :
    ∃ m : UInt64, m.toNat = n ∧ k.decode (k.twosComplement n) = .ok (.uint m) := by
  have hsigned : k.isSigned = false := by cases k <;> first | rfl | cases hk
  have hspan : k.span ≤ 2 ^ 64 := by cases k <;> decide
  have hrange := inRange_iff.mp hn
  simp only [lowest, greatest, hsigned, Bool.false_eq_true, if_false] at hrange
  have hdigits (m : Nat) : k.ofDigits m = .uint (.ofNat m) := by
    cases k <;> first | rfl | cases hk
  refine ⟨.ofNat n.toNat, ?_, ?_⟩
  · rw [UInt64.toNat_ofNat_of_lt' (by show n.toNat < 2 ^ 64; omega)]
    omega
  · rw [decode_twosComplement, hdigits, Int.emod_eq_of_lt hrange.1 (by omega)]

/-- Every byte string that is long enough stands for an integer, and its first bytes are the code of
that integer. -/
theorem encode_decode (hk : k.isInteger = true) (h : k.width ≤ bytes.size) :
    ∃ v, k.decode bytes = .ok v ∧ k.encode v = .ok (bytes.extract 0 k.width) := by
  have hsize : (bytes.extract 0 k.width).size = k.width := by
    rw [ByteArray.size_extract]
    omega
  refine ⟨_, decode_of_le h, encode_littleEndianValue hsize ?_ ?_⟩
  · rintro rfl
    cases hk
  · rintro rfl
    cases hk

/-- An integer kind encodes just the integers in its range, in two's complement and in as many bytes as
the kind is wide; it refuses other integers as out of range and other values for their form. The code
of an integer is decoded to that integer in the form of the kind, and every byte string that is long
enough starts with the code of what it is decoded to. The widest kinds have the integers that are
signed or unsigned words. -/
theorem encode_integers (k : Scalar) (hk : k.isInteger = true) :
    (∀ v bytes, k.encode v = .ok bytes ↔
      ∃ n, v.IsInteger n ∧ k.InRange n ∧ k.twosComplement n = bytes) ∧
    (∀ v n, v.IsInteger n → ¬ k.InRange n → k.encode v = .error (.outOfRange k v)) ∧
    (∀ v, (∀ n, ¬ v.IsInteger n) → k.encode v = .error (.formMismatch k.name v.form)) ∧
    (∀ n, k.InRange n → (k.twosComplement n).size = k.width ∧
      (k.isSigned = true → ∃ m : Int64, m.toInt = n ∧
        k.decode (k.twosComplement n) = .ok (.int m)) ∧
      (k.isUnsigned = true → ∃ m : UInt64, m.toNat = n ∧
        k.decode (k.twosComplement n) = .ok (.uint m))) ∧
    (∀ bytes : ByteArray, k.width ≤ bytes.size →
      ∃ v, k.decode bytes = .ok v ∧ k.encode v = .ok (bytes.extract 0 k.width)) ∧
    (∀ v, (∃ bytes, int64.encode v = .ok bytes) ↔ ∃ m, v.toInt64? = some m) ∧
    ∀ v, (∃ bytes, uint64.encode v = .ok bytes) ↔ ∃ m, v.toUInt64? = some m := by
  have hencode (v : Value) : k.encode v = k.encodeInteger v := encode_of_isInteger hk
  simp only [hencode]
  refine ⟨fun v bytes => encodeInteger_eq_ok_iff, fun v n => encodeInteger_of_not_inRange,
    fun v => encodeInteger_of_not_integer, fun n hn => ⟨size_littleEndian .., ?_, ?_⟩,
    fun bytes h => ?_, fun v => exists_encode_int64_iff,
    fun v => exists_encode_uint64_iff⟩
  · exact fun hsigned => decode_of_isSigned hsigned hn
  · exact fun hunsigned => decode_of_isUnsigned hunsigned hn
  · simpa only [hencode] using encode_decode hk h

theorem encode_integers_int16 : int16.encode (.int (-2)) = .ok ⟨#[0xfe, 0xff]⟩ ∧
    int16.encode (.uint 32768) = .error (.outOfRange int16 (.uint 32768)) ∧
    int16.encode (.float ⟨0⟩) = .error (.formMismatch "int16" "float") ∧
    ∃ v, int16.decode ⟨#[0xfe, 0xff, 7]⟩ = .ok v ∧ int16.encode v = .ok ⟨#[0xfe, 0xff]⟩ := by
  obtain ⟨hencode, hrange, hform, -, hdecode, -⟩ := encode_integers int16 rfl
  refine ⟨(hencode _ _).mpr ⟨_, .int (-2), by decide, rfl⟩, hrange _ _ (.uint 32768) (by decide),
    hform _ (fun _ => nofun), hdecode ⟨#[0xfe, 0xff, 7]⟩ (by decide)⟩

end Scalar

end RecordFile
