import RecordFile.Proofs.Number.Binary

/-!
# Exact values of floating point numbers

The value of a finite pattern as the interchange formats define it (`Format.value`) is its magnitude in
units with its sign (`Format.value_eq`). So the integer that `Binary64.toInt?` gives is just the value of
the number (`Binary64.toInt?_eq_some_iff`), widening keeps the value (`Binary32.value_widen`), and an
integer is the value of a number of a format exactly if its magnitude is one of the format
(`Format.Has`), that is, a multiple of a power of two by a number with no more bits than the fraction and
its leading bit (`Format.has_iff`).

Rounding is monotone (`Format.round_mono`), so nothing below a finite number is rounded past it. An
integer that is rounded twice, to the wide format and from there to the narrow one, is exact just if
the narrow format has it (`Binary64.value_narrow_ofInt`).
-/

namespace RecordFile

namespace Format

variable {f : Format} {m n s : Nat}

/-! ## Values -/

/-- The value of a finite pattern: the exponent is biased, and a fraction with an exponent has a leading
one before it. -/
def value (f : Format) (bits : Nat) : ℚ :=
  let bias : ℤ := 2 ^ (f.exponentBits - 1) - 1
  let exponent := bits / 2 ^ f.fractionBits % 2 ^ f.exponentBits
  let fraction : ℚ := (bits % 2 ^ f.fractionBits : ℕ) / 2 ^ f.fractionBits
  (if f.negative bits then -1 else 1) *
    if exponent = 0 then fraction * 2 ^ (1 - bias) else (1 + fraction) * 2 ^ (exponent - bias)

/-- The value of a pattern is its magnitude in units with its sign. -/
theorem value_eq (hf : 2 ≤ f.exponentBits) (bits : Nat) :
    f.value bits = (if f.negative bits then -1 else 1) *
      (f.units (f.magnitude bits) / 2 ^ f.unitScale) := by
  have hweight : f.signWeight = 2 ^ f.fractionBits * 2 ^ f.exponentBits := by
    rw [signWeight, Nat.one_shiftLeft, Nat.add_comm, pow_add]
  have hexponent : f.magnitude bits / 2 ^ f.fractionBits =
      bits / 2 ^ f.fractionBits % 2 ^ f.exponentBits := by
    rw [magnitude, hweight, Nat.mod_mul_right_div_self]
  have hfraction : f.magnitude bits % 2 ^ f.fractionBits = bits % 2 ^ f.fractionBits := by
    rw [magnitude, hweight, Nat.mod_mul_right_mod]
  have hscale : (f.unitScale : ℤ) = 2 ^ (f.exponentBits - 1) + f.fractionBits - 2 := by
    have hle : 2 ^ 1 ≤ 2 ^ (f.exponentBits - 1) := Nat.pow_le_pow_right (by decide) (by omega)
    rw [unitScale, Nat.one_shiftLeft]
    push_cast [Nat.cast_sub (show 2 ≤ 2 ^ (f.exponentBits - 1) + f.fractionBits by omega)]
    ring
  -- The first exponent is that of the unit, once the fraction is a whole number.
  have hunit : (2 : ℚ) ^ (1 - (2 ^ (f.exponentBits - 1) - 1) : ℤ) =
      2 ^ f.fractionBits / 2 ^ f.unitScale := by
    rw [eq_div_iff (by positivity), ← zpow_natCast, ← zpow_natCast, ← zpow_add₀ (by norm_num), hscale]
    congr 1
    ring
  simp only [value, units, Nat.shiftRight_eq_div_pow, Nat.one_shiftLeft, hexponent, hfraction]
  congr 1
  split
  · rw [hunit]
    field_simp
  · rename_i hpos
    obtain ⟨e, he⟩ := Nat.exists_eq_add_of_lt (Nat.pos_of_ne_zero hpos)
    rw [he, Nat.zero_add]
    have hpow : (2 : ℚ) ^ (((e + 1 : ℕ) : ℤ) - (2 ^ (f.exponentBits - 1) - 1)) =
        2 ^ e * (2 ^ f.fractionBits / 2 ^ f.unitScale) := by
      rw [← hunit, ← zpow_natCast, ← zpow_add₀ (by norm_num)]
      congr 1
      push_cast
      ring
    rw [hpow, Nat.add_sub_cancel, Nat.shiftLeft_eq]
    push_cast
    field_simp

/-- An integer has that sign. -/
theorem sign_mul_eq_natAbs_iff (negative : Bool) (n : ℤ) :
    (if negative then -1 else 1) * n = n.natAbs ↔ n = 0 ∨ negative = decide (n < 0) := by
  cases negative with
  | false =>
    have hsign : false = decide (n < 0) ↔ 0 ≤ n := by rw [eq_comm, decide_eq_false_iff_not, Int.not_lt]
    rw [hsign, if_neg Bool.false_ne_true]
    omega
  | true =>
    have hsign : true = decide (n < 0) ↔ n < 0 := by rw [eq_comm, decide_eq_true_iff]
    rw [hsign, if_pos rfl]
    omega

/-- A pattern has an integer as its value if its magnitude and its sign are those of the integer. -/
theorem value_eq_intCast_iff (hf : 2 ≤ f.exponentBits) {bits : Nat} {n : ℤ} :
    f.value bits = n ↔ f.units (f.magnitude bits) = n.natAbs * 2 ^ f.unitScale ∧
      (n = 0 ∨ f.negative bits = decide (n < 0)) := by
  rw [value_eq hf, ← sign_mul_eq_natAbs_iff]
  generalize f.units (f.magnitude bits) = u
  generalize hsign : (if f.negative bits then -1 else 1 : ℤ) = sign
  have hself : sign * sign = 1 := by
    rw [← hsign]
    split <;> rfl
  have hcast : (if f.negative bits then -1 else 1 : ℚ) = sign := by
    rw [← hsign]
    split <;> simp
  have hself' : (sign : ℚ) * sign = 1 := by exact_mod_cast hself
  have hpos : (0 : ℤ) < 2 ^ f.unitScale := by positivity
  calc (if f.negative bits then -1 else 1) * ((u : ℚ) / 2 ^ f.unitScale) = n
    _ ↔ (u : ℚ) / 2 ^ f.unitScale = sign * n := by
      rw [hcast]
      constructor <;> intro h
      · rw [← h, ← mul_assoc, hself', one_mul]
      · rw [h, ← mul_assoc, hself', one_mul]
    _ ↔ (u : ℤ) = sign * n * 2 ^ f.unitScale := by
      rw [div_eq_iff (by positivity)]
      exact_mod_cast Iff.rfl
    _ ↔ u = n.natAbs * 2 ^ f.unitScale ∧ sign * n = n.natAbs := by
      constructor
      · intro h
        have hle : 0 ≤ sign * n := by
          by_contra hneg
          have := Int.mul_neg_of_neg_of_pos (Int.not_le.mp hneg) hpos
          omega
        have habs : sign * n = n.natAbs := by
          have hone : sign.natAbs = 1 := by
            have := congrArg Int.natAbs hself
            rw [Int.natAbs_mul] at this
            exact Nat.eq_one_of_mul_eq_one_left this
          rw [← Int.natAbs_of_nonneg hle, Int.natAbs_mul, hone, Nat.one_mul]
        rw [habs] at h
        exact ⟨by exact_mod_cast h, habs⟩
      · rintro ⟨rfl, habs⟩
        rw [habs]
        push_cast
        rfl

/-! ## Magnitudes of a format -/

instance (f : Format) (n : Nat) : Decidable (f.Has n) := inferInstanceAs (Decidable (_ ∣ _))

/-- The magnitudes of a format are the multiples of powers of two by numbers with no more bits than the
fraction and its leading bit. -/
theorem has_iff : f.Has n ↔ ∃ m e, m < 2 ^ (f.fractionBits + 1) ∧ n = m * 2 ^ e := by
  constructor
  · intro h
    obtain ⟨q, hq⟩ := h
    refine ⟨q, n.log2 - f.fractionBits, ?_, hq.trans (Nat.mul_comm ..)⟩
    have hlt : n < 2 ^ (n.log2 - f.fractionBits) * 2 ^ (f.fractionBits + 1) := by
      rw [← pow_add]
      exact Nat.lt_of_lt_of_le Nat.lt_log2_self (Nat.pow_le_pow_right (by decide) (by omega))
    exact Nat.lt_of_mul_lt_mul_left (hq.symm.trans_lt hlt)
  · rintro ⟨m, e, hm, rfl⟩
    by_cases hzero : m = 0
    · rw [hzero, Nat.zero_mul]
      exact Nat.dvd_zero _
    · have hlog := (Nat.log2_lt hzero).mpr hm
      rw [Has, log2_mul_two_pow hzero]
      exact (Nat.pow_dvd_pow 2 (by omega)).trans (Nat.dvd_mul_left ..)

/-- Zero bits below do not count. -/
theorem has_mul_two_pow_iff : f.Has (n * 2 ^ s) ↔ f.Has n := by
  refine ⟨fun h => ?_, fun h => h.mul_two_pow (Nat.le_refl _) s⟩
  by_cases hzero : n = 0
  · rw [hzero]
    exact Nat.dvd_zero _
  rw [Has, log2_mul_two_pow hzero] at h
  rcases Nat.le_total n.log2 f.fractionBits with hle | hle
  · rw [Has, Nat.sub_eq_zero_of_le hle, pow_zero]
    exact Nat.one_dvd n
  · rw [Nat.sub_add_comm hle, pow_add] at h
    exact Nat.dvd_of_mul_dvd_mul_right (Nat.two_pow_pos s) h

/-- An integer that is the value of a pattern has a magnitude of the format. -/
theorem has_of_value (hf : 2 ≤ f.exponentBits) {bits : Nat} {n : ℤ} (h : f.value bits = n) :
    f.Has n.natAbs :=
  has_mul_two_pow_iff.mp (((value_eq_intCast_iff hf).mp h).1 ▸ f.has_units _)

/-! ## Rounding is monotone -/

theorem le_divideRound (n s : Nat) : n / 2 ^ s ≤ divideRound n s := by
  simp only [divideRound, Nat.shiftRight_eq_div_pow]
  split
  · exact Nat.le_refl _
  · split <;> omega

theorem divideRound_le (n s : Nat) : divideRound n s ≤ n / 2 ^ s + 1 := by
  simp only [divideRound, Nat.shiftRight_eq_div_pow]
  split
  · omega
  · split <;> omega

theorem divideRound_mono (h : m ≤ n) : divideRound m s ≤ divideRound n s := by
  rcases Nat.lt_or_eq_of_le (Nat.div_le_div_right (c := 2 ^ s) h) with hlt | heq
  · exact (divideRound_le m s).trans (Nat.le_trans hlt (le_divideRound n s))
  · have hrest : m % 2 ^ s ≤ n % 2 ^ s := by
      have hm := Nat.div_add_mod m (2 ^ s)
      have hn := Nat.div_add_mod n (2 ^ s)
      rw [heq] at hm
      omega
    simp only [divideRound, Nat.shiftRight_eq_div_pow, Nat.one_shiftLeft, heq]
    split_ifs <;> omega

/-- What is not greater is not rounded to something greater. -/
theorem round_mono (h : m ≤ n) : f.round m s ≤ f.round n s := by
  refine min_le_min_right _ ?_
  simp only [Nat.shiftLeft_eq]
  have hlog : m.log2 ≤ n.log2 := by
    rw [Nat.log2_eq_log_two, Nat.log2_eq_log_two]
    exact Nat.log_mono_right h
  generalize he : m.log2 - (s + f.fractionBits) = e
  generalize he' : n.log2 - (s + f.fractionBits) = e'
  rcases Nat.lt_or_eq_of_le (show e ≤ e' by omega) with hlt | rfl
  · -- The greatest number with the smaller exponent is rounded at most to the next exponent.
    have hm : m / 2 ^ (s + e) < 2 ^ (f.fractionBits + 1) := by
      rw [Nat.div_lt_iff_lt_mul (Nat.two_pow_pos _), ← pow_add]
      exact Nat.lt_of_lt_of_le Nat.lt_log2_self (Nat.pow_le_pow_right (by decide) (by omega))
    have hn : 2 ^ f.fractionBits ≤ n / 2 ^ (s + e') := by
      have hne : n ≠ 0 := by
        rintro rfl
        simp only [Nat.log2_zero] at he'
        omega
      rw [Nat.le_div_iff_mul_le (Nat.two_pow_pos _), ← pow_add]
      exact Nat.le_trans (Nat.pow_le_pow_right (by decide) (by omega)) (Nat.log2_self_le hne)
    have hlow := divideRound_le m (s + e)
    have hhigh := le_divideRound n (s + e')
    have hstep : (e + 1) * 2 ^ f.fractionBits ≤ e' * 2 ^ f.fractionBits := Nat.mul_le_mul_right _ hlt
    rw [Nat.add_mul, Nat.one_mul] at hstep
    rw [pow_succ] at hm
    omega
  · exact Nat.add_le_add_left (divideRound_mono h) _

theorem round_le_infinity (n s : Nat) : f.round n s ≤ f.infinity := min_le_right _ _

end Format

/-! ## The two widths -/

open Format (binary32 binary64)

/-- A magnitude in finer units is the same. -/
theorem shiftLeft_div_two_pow (u d s : Nat) : ((u <<< s : Nat) : ℚ) / 2 ^ (d + s) = u / 2 ^ d := by
  rw [Nat.shiftLeft_eq, Nat.cast_mul, Nat.cast_pow, Nat.cast_ofNat, pow_add,
    mul_div_mul_right _ _ (by positivity)]

/-- A narrow number of which the sign and the magnitude are given. -/
theorem Binary32.magnitude_ofNat (negative : Bool) {m : Nat} (h : m < binary32.signWeight) :
    (⟨.ofNat (binary32.withSign negative m)⟩ : Binary32).magnitude = m ∧
      (⟨.ofNat (binary32.withSign negative m)⟩ : Binary32).negative = negative := by
  have hlt : binary32.withSign negative m < UInt32.size := Format.withSign_lt h
  have hbits : (UInt32.ofNat (binary32.withSign negative m)).toNat = binary32.withSign negative m :=
    UInt32.toNat_ofNat_of_lt hlt
  exact ⟨(congrArg binary32.magnitude hbits).trans (Format.magnitude_withSign h),
    (congrArg binary32.negative hbits).trans (Format.negative_withSign h)⟩

namespace Binary64

variable {x : Binary64} {n : ℤ}

/-- The value of a finite number. -/
def value (x : Binary64) : ℚ := binary64.value x.bits.toNat

theorem abs_value (x : Binary64) :
    |x.value| = binary64.units x.magnitude / 2 ^ binary64.unitScale := by
  rw [value, Format.value_eq (by decide), abs_mul, abs_of_nonneg (a := (_ / _ : ℚ)) (by positivity)]
  have hsign : |(if binary64.negative x.bits.toNat then -1 else 1 : ℚ)| = 1 := by
    split <;> simp
  rw [hsign, one_mul]
  rfl

/-- Finite numbers are ordered by their magnitudes. -/
theorem abs_value_le_iff {y : Binary64} : |x.value| ≤ |y.value| ↔ x.magnitude ≤ y.magnitude := by
  rw [abs_value, abs_value, div_le_div_iff_of_pos_right (by positivity), Nat.cast_le,
    binary64.units_strictMono.le_iff_le]

/-- The integer that a number is read as is its value. -/
theorem toInt?_eq_some_iff : x.toInt? = some n ↔ x.isFinite = true ∧ x.value = n := by
  rw [value, Format.value_eq_intCast_iff (by decide)]
  show _ ↔ _ ∧ binary64.units x.magnitude = _ ∧ (_ ∨ x.negative = _)
  have hpos : 0 < 2 ^ binary64.unitScale := Nat.two_pow_pos _
  simp only [toInt?, Nat.shiftRight_eq_div_pow, Nat.one_shiftLeft]
  generalize 2 ^ binary64.unitScale = scale at hpos ⊢
  constructor
  · intro h
    split at h
    · rename_i hwhole
      have hunits := (Nat.div_mul_cancel (Nat.dvd_of_mod_eq_zero hwhole.2)).symm
      obtain rfl := Option.some.inj h
      clear h
      generalize binary64.units x.magnitude / scale = whole at hunits ⊢
      refine ⟨hwhole.1, ?_, ?_⟩
      · cases x.negative <;> simpa using hunits
      · rw [← Format.sign_mul_eq_natAbs_iff]
        cases x.negative <;> simp
    · cases h
  · rintro ⟨hfinite, hunits, hsign⟩
    rw [hunits, if_pos ⟨hfinite, Nat.mul_mod_left ..⟩, Nat.mul_div_cancel _ hpos]
    congr 1
    rcases hsign with rfl | hsign
    · simp
    · rw [hsign]
      simp only [decide_eq_true_eq]
      split <;> omega

theorem ofInt_eq (n : ℤ) :
    (ofInt n).magnitude = binary64.round (n.natAbs <<< binary64.unitScale) 0 ∧
      (ofInt n).negative = decide (n < 0) :=
  magnitude_ofNat _ (Nat.lt_of_le_of_lt (Format.round_le_infinity ..) infinity_lt)

theorem isFinite_ofInt (hlt : n.natAbs < 2 ^ 128) : (ofInt n).isFinite = true := by
  refine decide_eq_true ?_
  calc (ofInt n).magnitude
    _ = binary64.round (n.natAbs <<< binary64.unitScale) 0 := (ofInt_eq n).1
    _ ≤ binary64.round ((2 ^ 128) <<< binary64.unitScale) 0 :=
      Format.round_mono (shiftLeft_strictMono _ hlt).le
    _ < binary64.infinity := by decide +kernel

/-- An integer with a magnitude of the format is the value of the number nearest to it. -/
theorem value_ofInt (hn : binary64.Has n.natAbs) (hlt : n.natAbs < 2 ^ 128) :
    (ofInt n).isFinite = true ∧ (ofInt n).value = n := by
  have hhas : binary64.Has (n.natAbs <<< binary64.unitScale) := by
    rwa [Nat.shiftLeft_eq, Format.has_mul_two_pow_iff]
  have hfits : n.natAbs <<< binary64.unitScale < binary64.units binary64.infinity :=
    calc n.natAbs <<< binary64.unitScale
      _ < (2 ^ 128) <<< binary64.unitScale := shiftLeft_strictMono _ hlt
      _ ≤ binary64.units binary64.infinity := by decide +kernel
  obtain ⟨hfinite, hunits⟩ := Format.units_round hhas hfits
  obtain ⟨hmagnitude, hnegative⟩ := ofInt_eq n
  rw [← hmagnitude] at hfinite hunits
  rw [Nat.shiftLeft_eq] at hunits
  exact ⟨decide_eq_true hfinite,
    (Format.value_eq_intCast_iff (by decide)).mpr ⟨hunits, .inr hnegative⟩⟩

theorem narrow_of_isFinite (h : x.isFinite = true) :
    x.narrow.magnitude = binary32.round (binary64.units x.magnitude) 925 ∧
      x.narrow.negative = x.negative := by
  have hnarrow : x.narrow = ⟨.ofNat (binary32.withSign x.negative
      (binary32.round (binary64.units x.magnitude) 925))⟩ := by
    simp only [narrow, h, if_true, unitScale_sub]
  rw [hnarrow]
  exact Binary32.magnitude_ofNat _ (Nat.lt_of_le_of_lt (Format.round_le_infinity ..) (by decide))

end Binary64

namespace Binary32

variable {x : Binary32} {n : ℤ}

/-- The value of a finite number. -/
def value (x : Binary32) : ℚ := binary32.value x.bits.toNat

/-- Widening keeps the value. -/
theorem value_widen (h : x.magnitude < binary32.infinity) : x.widen.value = x.value := by
  obtain ⟨-, hunits, hnegative⟩ := units_widen h
  have hscale : binary64.unitScale = binary32.unitScale + 925 := by decide
  rw [value, Binary64.value, Format.value_eq (by decide), Format.value_eq (by decide)]
  show (if x.widen.negative then _ else _) * (binary64.units x.widen.magnitude / _ : ℚ) =
    (if x.negative then _ else _) * (binary32.units x.magnitude / _ : ℚ)
  rw [hunits, hnegative, hscale, shiftLeft_div_two_pow]

/-- The largest finite number. -/
theorem value_largest : largest.value = (2 ^ 24 - 1) * 2 ^ 104 := by
  have h : largest.value = ((2 ^ 24 - 1) * 2 ^ 104 : ℤ) :=
    (Format.value_eq_intCast_iff (by decide)).mpr ⟨by decide +kernel, .inr (by decide)⟩
  rw [h]
  norm_num

end Binary32

namespace Binary64

variable {x : Binary64} {n : ℤ}

/-- Narrowing a finite number gives no NaN. -/
theorem isNaN_narrow (h : x.isFinite = true) : x.narrow.isNaN = false := by
  rw [Binary32.isNaN, (narrow_of_isFinite h).1]
  exact decide_eq_false (Nat.not_lt.mpr (Format.round_le_infinity ..))

/-- An integer with a magnitude of the narrow format stays the same when the wide number nearest to it
is narrowed. -/
theorem value_narrow_ofInt (hn : binary32.Has n.natAbs) (hlt : n.natAbs < 2 ^ 128) :
    (ofInt n).narrow.magnitude < binary32.infinity ∧ (ofInt n).narrow.value = n := by
  have hwide : binary64.Has (n.natAbs * 2 ^ 0) := hn.mul_two_pow (by decide) 0
  rw [Format.has_mul_two_pow_iff] at hwide
  obtain ⟨hfinite, hvalue⟩ := value_ofInt hwide hlt
  obtain ⟨hunits, -⟩ := (Format.value_eq_intCast_iff (by decide)).mp hvalue
  have hhas : binary32.Has (n.natAbs <<< binary32.unitScale) := by
    rwa [Nat.shiftLeft_eq, Format.has_mul_two_pow_iff]
  have hfits : n.natAbs <<< binary32.unitScale < binary32.units binary32.infinity :=
    calc n.natAbs <<< binary32.unitScale
      _ < (2 ^ 128) <<< binary32.unitScale := shiftLeft_strictMono _ hlt
      _ ≤ binary32.units binary32.infinity := by decide +kernel
  obtain ⟨hp, hpunits⟩ := Format.units_round hhas hfits
  generalize binary32.round (n.natAbs <<< binary32.unitScale) 0 = p at hp hpunits
  have hsame : binary64.units (ofInt n).magnitude = binary32.units p <<< 925 := by
    have hscale : binary64.unitScale = binary32.unitScale + 925 := by decide
    rw [hpunits, ← Nat.shiftLeft_add, ← hscale, Nat.shiftLeft_eq]
    exact hunits
  obtain ⟨hmagnitude, hnegative⟩ := narrow_of_isFinite hfinite
  rw [hsame, Format.round_units, Nat.min_eq_left hp.le] at hmagnitude
  rw [hmagnitude]
  rw [Nat.shiftLeft_eq] at hpunits
  refine ⟨hp, (Format.value_eq_intCast_iff (by decide)).mpr ⟨?_, .inr ?_⟩⟩
  · exact (congrArg binary32.units hmagnitude).trans hpunits
  · exact hnegative.trans (ofInt_eq n).2

/-- Numbers of the narrow format are all that is not greater than its largest one. -/
theorem narrow_lt_of_le (hfinite : x.isFinite = true)
    (hle : x.magnitude ≤ Binary32.largest.widen.magnitude) :
    x.narrow.magnitude < binary32.infinity := by
  obtain ⟨-, hlargest, -⟩ := Binary32.units_widen (x := Binary32.largest) (by decide)
  calc x.narrow.magnitude
    _ = binary32.round (binary64.units x.magnitude) 925 := (narrow_of_isFinite hfinite).1
    _ ≤ binary32.round (binary32.units Binary32.largest.magnitude <<< 925) 925 :=
      Format.round_mono (hlargest ▸ binary64.units_strictMono.monotone hle)
    _ = min Binary32.largest.magnitude binary32.infinity := Format.round_units ..
    _ < binary32.infinity := by decide

end Binary64

end RecordFile
