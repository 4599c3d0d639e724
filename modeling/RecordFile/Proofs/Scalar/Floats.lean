import RecordFile.Proofs.Number.Exact
import RecordFile.Proofs.Scalar.Integers

/-!
# Floating point numbers as scalars

A floating point kind accepts just the integers that it has exactly (`Scalar.HasInteger`): the number
that is stored has the integer as its value, and all others are refused as out of range, however they
would be rounded (`Scalar.toInt?_nearest_iff`). Patterns that are no NaN are decoded to a number that is
encoded as the same pattern. The narrow kind accepts the finite numbers up to its largest one, and none
of them becomes infinite on its way (`Scalar.encode_floats`).
-/

namespace RecordFile

namespace Scalar

open Format (binary32 binary64)

variable {k : Scalar} {v : Value} {n : Int} {bytes : ByteArray} {x : Binary64}

/-! ## Integers -/

/-- The bits of the fraction of a floating point kind and of the leading one before it. -/
def precision (k : Scalar) : Nat := if k = float32 then 24 else 53

/-- The integer is a number with no more bits than the precision, times a power of two. -/
def HasInteger (k : Scalar) (n : Int) : Prop :=
  ∃ (m : Int) (e : Nat), m.natAbs < 2 ^ k.precision ∧ n = m * 2 ^ e

/-- The format of a floating point kind. -/
def format (k : Scalar) : Format := if k = float32 then binary32 else binary64

theorem precision_eq (k : Scalar) : k.precision = k.format.fractionBits + 1 := by
  cases k <;> rfl

theorem hasInteger_iff : k.HasInteger n ↔ k.format.Has n.natAbs := by
  rw [HasInteger, Format.has_iff, precision_eq]
  constructor
  · rintro ⟨m, e, hm, rfl⟩
    exact ⟨m.natAbs, e, hm, by rw [Int.natAbs_mul, Int.natAbs_pow]; rfl⟩
  · rintro ⟨m, e, hm, hn⟩
    rcases n.natAbs_eq with h | h
    · exact ⟨m, e, hm, by rw [h, hn]; push_cast; rfl⟩
    · exact ⟨-m, e, by rwa [Int.natAbs_neg, Int.natAbs_natCast], by rw [h, hn]; push_cast; ring⟩

instance (k : Scalar) (n : Int) : Decidable (k.HasInteger n) :=
  decidable_of_iff _ hasInteger_iff.symm

/-- The number nearest to an integer is the integer just if the kind has it. -/
theorem toInt?_nearest_iff (hlt : n.natAbs < 2 ^ 128) :
    (k.nearest n).toInt? = some n ↔ k.HasInteger n := by
  rw [Binary64.toInt?_eq_some_iff, hasInteger_iff]
  by_cases hnarrow : k = float32
  · rw [nearest, if_pos hnarrow, format, if_pos hnarrow]
    constructor
    · rintro ⟨hfinite, hvalue⟩
      have hnan := Binary64.isNaN_narrow (Binary64.isFinite_ofInt hlt)
      rw [Binary32.value_widen (Binary32.magnitude_lt_of_widen hnan hfinite)] at hvalue
      exact Format.has_of_value (by decide) hvalue
    · intro hn
      obtain ⟨hfinite, hvalue⟩ := Binary64.value_narrow_ofInt hn hlt
      exact ⟨decide_eq_true (Binary32.units_widen hfinite).1, (Binary32.value_widen hfinite).trans hvalue⟩
  · rw [nearest, if_neg hnarrow, format, if_neg hnarrow]
    exact ⟨fun h => Format.has_of_value (by decide) h.2, fun hn => Binary64.value_ofInt hn hlt⟩

theorem floatOperand_of_isInteger (hv : v.IsInteger n) :
    k.floatOperand v =
      if (k.nearest n).toInt? = some n then .ok (k.nearest n) else .error (.outOfRange k v) := by
  cases hv <;> rfl

/-- The code of a wide number is decoded to the number. -/
theorem decode_float64 (x : Binary64) :
    float64.decode (littleEndian 8 x.bits.toNat) = .ok (.float x) := by
  have hlt : x.bits.toNat < 256 ^ float64.width := x.bits.toNat_lt
  refine (decode_littleEndian hlt).trans ?_
  simp only [ofDigits, UInt64.ofNat_toNat]

/-- The code of a narrow number is decoded to the wide number of the same value. -/
theorem decode_float32 (y : Binary32) :
    float32.decode (littleEndian 4 y.bits.toNat) = .ok (.float y.widen) := by
  have hlt : y.bits.toNat < 256 ^ float32.width := y.bits.toNat_lt
  refine (decode_littleEndian hlt).trans ?_
  simp only [ofDigits, UInt32.ofNat_toNat]

theorem encode_float64 (h : float64.floatOperand v = .ok x) :
    float64.encode v = .ok (littleEndian 8 x.bits.toNat) := by
  simp only [encode, h, bind, Except.bind]

/-- The narrow kind encodes what its largest number bounds, and what is not finite anyway. -/
theorem encode_float32 (h : float32.floatOperand v = .ok x) :
    float32.encode v =
      if x.isFinite = true ∧ Binary32.largest.widen.magnitude < x.magnitude then
        .error (.outOfRange float32 v)
      else .ok (littleEndian 4 x.narrow.bits.toNat) := by
  simp only [encode, h, bind, Except.bind]

theorem encode_of_floatOperand_error {e : Error} (hk : k.isFloat = true)
    (h : k.floatOperand v = .error e) : k.encode v = .error e := by
  cases k with
  | float32 | float64 => simp only [encode, h, bind, Except.bind]
  | _ => cases hk

/-- An integer that the kind has is encoded as the number that it is. -/
theorem encode_of_hasInteger (hk : k.isFloat = true) (hv : v.IsInteger n) (hn : k.HasInteger n) :
    ∃ bytes x, k.encode v = .ok bytes ∧ k.decode bytes = .ok (.float x) ∧
      x.isFinite = true ∧ x.value = n := by
  have hlt : n.natAbs < 2 ^ 128 := hv.natAbs_lt.trans (by decide)
  have hnearest := (toInt?_nearest_iff hlt).mpr hn
  obtain ⟨hfinite, hvalue⟩ := Binary64.toInt?_eq_some_iff.mp hnearest
  have hoperand := floatOperand_of_isInteger (k := k) hv
  rw [if_pos hnearest] at hoperand
  cases k with
  | float64 => exact ⟨_, _, encode_float64 hoperand, decode_float64 _, hfinite, hvalue⟩
  | float32 =>
    have hnan := Binary64.isNaN_narrow (Binary64.isFinite_ofInt hlt)
    have hfits := Binary32.widen_le hnan hfinite
    have hnear : float32.nearest n = (Binary64.ofInt n).narrow.widen := rfl
    have hencode := encode_float32 hoperand
    rw [hnear, if_neg fun h => absurd hfits (Nat.not_le.mpr h.2), Binary32.narrow_widen hnan] at hencode
    exact ⟨_, _, hencode, decode_float32 _, hfinite, hvalue⟩
  | _ => cases hk

theorem encode_of_not_hasInteger (hk : k.isFloat = true) (hv : v.IsInteger n)
    (hn : ¬ k.HasInteger n) : k.encode v = .error (.outOfRange k v) := by
  refine encode_of_floatOperand_error hk ?_
  have hlt : n.natAbs < 2 ^ 128 := hv.natAbs_lt.trans (by decide)
  rw [floatOperand_of_isInteger hv, if_neg (mt (toInt?_nearest_iff hlt).mp hn)]

/-! ## Floating point numbers -/

/-- A pattern is decoded and encoded again to itself, unless it is a NaN of the narrow kind. -/
theorem encode_decode_of_isFloat (hk : k.isFloat = true) (hsize : bytes.size = k.width)
    (hnan : k = float32 → (⟨.ofNat (littleEndianValue bytes)⟩ : Binary32).isNaN = false) :
    ∃ x, k.decode bytes = .ok (.float x) ∧ k.encode (.float x) = .ok bytes := by
  have hcode := encode_littleEndianValue hsize (by rintro rfl; cases hk) hnan
  cases k with
  | float32 | float64 => exact ⟨_, decode_of_size hsize, hcode⟩
  | _ => cases hk

theorem abs_value_le_largest_iff :
    |x.value| ≤ (2 ^ 24 - 1) * 2 ^ 104 ↔ x.magnitude ≤ Binary32.largest.widen.magnitude := by
  rw [← Binary64.abs_value_le_iff, Binary32.value_widen (by decide), Binary32.value_largest,
    abs_of_nonneg (by norm_num : (0 : ℚ) ≤ (2 ^ 24 - 1) * 2 ^ 104)]

/-- The narrow kind has the finite numbers up to its largest one. -/
theorem exists_encode_float32_iff (hfinite : x.isFinite = true) :
    (∃ bytes, float32.encode (.float x) = .ok bytes) ↔ |x.value| ≤ (2 ^ 24 - 1) * 2 ^ 104 := by
  rw [abs_value_le_largest_iff, encode_float32 (x := x) rfl]
  constructor
  · rintro ⟨bytes, h⟩
    by_contra hlt
    rw [if_pos ⟨hfinite, Nat.not_le.mp hlt⟩] at h
    cases h
  · intro hle
    exact ⟨_, if_neg fun h => absurd hle (Nat.not_le.mpr h.2)⟩

/-- What the narrow kind has of a finite number is finite. -/
theorem isFinite_of_encode_float32 (hfinite : x.isFinite = true)
    (h : float32.encode (.float x) = .ok bytes) :
    ∃ y, float32.decode bytes = .ok (.float y) ∧ y.isFinite = true := by
  have hle := abs_value_le_largest_iff.mp ((exists_encode_float32_iff hfinite).mp ⟨bytes, h⟩)
  rw [encode_float32 (x := x) rfl, if_neg fun hlt => absurd hle (Nat.not_le.mpr hlt.2)] at h
  obtain rfl := Except.ok.inj h
  exact ⟨_, decode_float32 _,
    decide_eq_true (Binary32.units_widen (Binary64.narrow_lt_of_le hfinite hle)).1⟩

/-- A floating point kind encodes an integer if it is a number of at most its precision times a power of
two, and then as the number that is the integer, and refuses it as out of range otherwise. Every
pattern that is no NaN is decoded to a number that is encoded as that pattern. The narrow kind
encodes a finite number if it is not past its largest one, and then never as an infinity. -/
theorem encode_floats (k : Scalar) (hk : k.isFloat = true) :
    (∀ v n, v.IsInteger n →
      (k.HasInteger n → ∃ bytes x, k.encode v = .ok bytes ∧ k.decode bytes = .ok (.float x) ∧
        x.isFinite = true ∧ x.value = n) ∧
      (¬ k.HasInteger n → k.encode v = .error (.outOfRange k v))) ∧
    (∀ bytes : ByteArray, bytes.size = 4 →
      (⟨.ofNat (littleEndianValue bytes)⟩ : Binary32).isNaN = false →
      ∃ x, float32.decode bytes = .ok (.float x) ∧ float32.encode (.float x) = .ok bytes) ∧
    (∀ bytes : ByteArray, bytes.size = 8 →
      (⟨.ofNat (littleEndianValue bytes)⟩ : Binary64).isNaN = false →
      ∃ x, float64.decode bytes = .ok (.float x) ∧ float64.encode (.float x) = .ok bytes) ∧
    ∀ x : Binary64, x.isFinite = true →
      ((∃ bytes, float32.encode (.float x) = .ok bytes) ↔
        |x.value| ≤ (2 ^ 24 - 1) * 2 ^ 104) ∧
      ∀ bytes, float32.encode (.float x) = .ok bytes →
        ∃ y, float32.decode bytes = .ok (.float y) ∧ y.isFinite = true := by
  refine ⟨fun v n hv => ⟨encode_of_hasInteger hk hv, encode_of_not_hasInteger hk hv⟩,
    fun bytes hsize hnan => encode_decode_of_isFloat (k := float32) rfl hsize fun _ => hnan,
    fun bytes hsize _ => encode_decode_of_isFloat (k := float64) rfl hsize nofun,
    fun x hfinite => ⟨exists_encode_float32_iff hfinite, fun bytes => ?_⟩⟩
  exact isFinite_of_encode_float32 hfinite

theorem encode_floats_float32 :
    (∃ bytes x, float32.encode (.int 16777218) = .ok bytes ∧ float32.decode bytes = .ok (.float x) ∧
      x.isFinite = true ∧ x.value = (16777218 : Int)) ∧
    float32.encode (.uint 16777217) = .error (.outOfRange float32 (.uint 16777217)) ∧
    (∃ x, float32.decode ⟨#[1, 0, 0, 0x80]⟩ = .ok (.float x) ∧
      float32.encode (.float x) = .ok ⟨#[1, 0, 0, 0x80]⟩) ∧
    (∃ x, float64.decode ⟨#[0, 0, 0, 0, 0, 0, 0xf0, 0x7f]⟩ = .ok (.float x) ∧
      float64.encode (.float x) = .ok ⟨#[0, 0, 0, 0, 0, 0, 0xf0, 0x7f]⟩) ∧
    ∃ y, float32.decode ⟨#[1, 0, 0, 0]⟩ = .ok (.float y) ∧ y.isFinite = true := by
  obtain ⟨hinteger, hnarrow, hwide, hfinite⟩ := encode_floats float32 rfl
  refine ⟨(hinteger _ _ (.int 16777218)).1 (by decide +kernel),
    (hinteger _ _ (.uint 16777217)).2 (by decide +kernel),
    hnarrow _ (by decide) (by decide), hwide _ (by decide) (by decide),
    (hfinite ⟨0x36a0000000000000⟩ (by decide)).2 _ ?_⟩
  rw [encode_float32 rfl, if_neg (by decide +kernel)]
  exact congrArg _ (by decide +kernel)

end Scalar

end RecordFile
