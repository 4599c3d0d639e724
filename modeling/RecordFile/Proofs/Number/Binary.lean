import Mathlib
import RecordFile.Number.Binary

/-!
# Exact conversions between floating point widths

Patterns of a format count magnitudes in order (`Format.units_strictMono`), and rounding the magnitude
of a pattern gives the pattern, however many zero bits are put below the unit (`Format.round_units`).
A magnitude is one of a format if it has no more significant bits than the fraction and its leading
bit hold (`Format.Has`); then it is that of the pattern it is rounded to (`Format.units_pattern`).

A 32-bit number has few enough of them for the wider format, so that widening is exact
(`Binary32.units_widen`) and narrowing undoes it (`Binary32.narrow_widen`), and widening keeps the order
of finite magnitudes (`Binary32.widen_le`).
-/

namespace RecordFile

namespace Format

variable {f f' : Format} {n s : Nat}

/-! ## Magnitudes of patterns -/

theorem units_of_lt {m : Nat} (h : m < 2 ^ f.fractionBits) : f.units m = m := by
  simp only [units, Nat.shiftRight_eq_div_pow, Nat.shiftLeft_eq, Nat.one_mul,
    Nat.div_eq_of_lt h, if_true, Nat.mod_eq_of_lt h]

/-- From the first exponent on, the fraction has a leading one before it. -/
theorem units_of_exponent {k c : Nat} (h : c < 2 ^ f.fractionBits) :
    f.units ((k + 1) * 2 ^ f.fractionBits + c) = (2 ^ f.fractionBits + c) * 2 ^ k := by
  have hpos : 0 < 2 ^ f.fractionBits := Nat.two_pow_pos _
  have hdiv : ((k + 1) * 2 ^ f.fractionBits + c) / 2 ^ f.fractionBits = k + 1 := by
    rw [Nat.mul_comm, Nat.mul_add_div hpos, Nat.div_eq_of_lt h, Nat.add_zero]
  have hmod : ((k + 1) * 2 ^ f.fractionBits + c) % 2 ^ f.fractionBits = c := by
    rw [Nat.mul_comm, Nat.mul_add_mod, Nat.mod_eq_of_lt h]
  simp only [units, Nat.shiftRight_eq_div_pow, Nat.shiftLeft_eq, Nat.one_mul, hdiv, hmod,
    Nat.succ_ne_zero, if_false, Nat.add_sub_cancel]

/-- A pattern is a fraction, or an exponent with a fraction behind it. -/
theorem pattern_cases (f : Format) (m : Nat) :
    m < 2 ^ f.fractionBits ∨ ∃ k c, c < 2 ^ f.fractionBits ∧ m = (k + 1) * 2 ^ f.fractionBits + c := by
  have hpos : 0 < 2 ^ f.fractionBits := Nat.two_pow_pos _
  rcases Nat.lt_or_ge m (2 ^ f.fractionBits) with hlt | hge
  · exact .inl hlt
  · have hdiv : 1 ≤ m / 2 ^ f.fractionBits := (Nat.le_div_iff_mul_le hpos).mpr (by omega)
    refine .inr ⟨m / 2 ^ f.fractionBits - 1, m % 2 ^ f.fractionBits, Nat.mod_lt _ hpos, ?_⟩
    rw [Nat.sub_add_cancel hdiv]
    exact (Nat.div_add_mod' ..).symm

/-- Patterns count magnitudes in order. -/
theorem units_strictMono (f : Format) : StrictMono f.units := by
  refine strictMono_nat_of_lt_succ fun m => ?_
  have hpos : 0 < 2 ^ f.fractionBits := Nat.two_pow_pos _
  rcases f.pattern_cases m with hlt | ⟨k, c, hc, rfl⟩
  · rw [units_of_lt hlt]
    rcases Nat.lt_or_ge (m + 1) (2 ^ f.fractionBits) with hlt' | hge
    · rw [units_of_lt hlt']
      exact Nat.lt_succ_self m
    · -- the first exponent begins where the fractions without one end
      have hnext : m + 1 = (0 + 1) * 2 ^ f.fractionBits + 0 := by omega
      rw [hnext, units_of_exponent hpos, pow_zero]
      omega
  · have hk : 0 < 2 ^ k := Nat.two_pow_pos k
    rw [units_of_exponent hc]
    rcases Nat.lt_or_ge (c + 1) (2 ^ f.fractionBits) with hlt | hge
    · rw [Nat.add_assoc, units_of_exponent hlt]
      exact Nat.mul_lt_mul_of_pos_right (by omega) hk
    · have hnext : (k + 1) * 2 ^ f.fractionBits + c + 1 =
          (k + 1 + 1) * 2 ^ f.fractionBits + 0 := by
        rw [Nat.add_mul (k + 1) 1]
        omega
      rw [hnext, units_of_exponent hpos, pow_succ', ← Nat.mul_assoc]
      exact Nat.mul_lt_mul_of_pos_right (by omega) hk

/-! ## Magnitudes that a format has -/

/-- A magnitude of `n` units has no more significant bits than the format. -/
def Has (f : Format) (n : Nat) : Prop := 2 ^ (n.log2 - f.fractionBits) ∣ n

theorem log2_mul_two_pow (h : n ≠ 0) (s : Nat) : (n * 2 ^ s).log2 = n.log2 + s := by
  have hne : n * 2 ^ s ≠ 0 := Nat.mul_ne_zero h (Nat.two_pow_pos s).ne'
  refine Nat.le_antisymm (Nat.le_of_lt_succ ((Nat.log2_lt hne).mpr ?_)) ((Nat.le_log2 hne).mpr ?_)
  · rw [Nat.succ_eq_add_one, Nat.add_right_comm, pow_add]
    exact Nat.mul_lt_mul_of_pos_right Nat.lt_log2_self (Nat.two_pow_pos s)
  · rw [pow_add]
    exact Nat.mul_le_mul_right _ (Nat.log2_self_le h)

/-- Zero bits below do not count, and neither do further bits of the format. -/
theorem Has.mul_two_pow (h : f.Has n) (hle : f.fractionBits ≤ f'.fractionBits) (s : Nat) :
    f'.Has (n * 2 ^ s) := by
  by_cases hn : n = 0
  · subst hn
    rw [Nat.zero_mul]
    exact Nat.dvd_zero _
  · have hdvd : 2 ^ (n.log2 - f.fractionBits + s) ∣ n * 2 ^ s := by
      rw [pow_add]
      exact Nat.mul_dvd_mul_right h _
    rw [Has, log2_mul_two_pow hn]
    exact (Nat.pow_dvd_pow 2 (by omega)).trans hdvd

theorem has_units (f : Format) (m : Nat) : f.Has (f.units m) := by
  rcases f.pattern_cases m with hlt | ⟨k, c, hc, rfl⟩
  · rw [units_of_lt hlt, Has]
    by_cases hm : m = 0
    · exact hm ▸ Nat.dvd_zero _
    · rw [Nat.sub_eq_zero_of_le (Nat.le_of_lt ((Nat.log2_lt hm).mpr hlt)), pow_zero]
      exact Nat.one_dvd m
  · have hlead : (2 ^ f.fractionBits + c).log2 = f.fractionBits := by
      have hpos : 0 < 2 ^ f.fractionBits := Nat.two_pow_pos _
      refine Nat.le_antisymm (Nat.le_of_lt_succ ((Nat.log2_lt (by omega)).mpr ?_))
        ((Nat.le_log2 (by omega)).mpr (Nat.le_add_right ..))
      rw [pow_succ]
      omega
    rw [units_of_exponent hc, Has, log2_mul_two_pow (by omega), hlead, Nat.add_sub_cancel_left]
    exact Nat.dvd_mul_left ..

/-- The pattern that a magnitude is rounded to which the format has. -/
theorem units_pattern (h : f.Has n) :
    f.units ((n.log2 - f.fractionBits) * 2 ^ f.fractionBits + n / 2 ^ (n.log2 - f.fractionBits)) =
      n := by
  rcases Nat.lt_or_ge n (2 ^ f.fractionBits) with hlt | hge
  · have hlog : n.log2 - f.fractionBits = 0 := by
      by_cases hn : n = 0
      · rw [hn]
        exact Nat.zero_sub _
      · exact Nat.sub_eq_zero_of_le (Nat.le_of_lt ((Nat.log2_lt hn).mpr hlt))
    rw [hlog, Nat.zero_mul, Nat.zero_add, pow_zero, Nat.div_one, units_of_lt hlt]
  · have hne : n ≠ 0 := Nat.ne_of_gt (Nat.lt_of_lt_of_le (Nat.two_pow_pos _) hge)
    have hlog : f.fractionBits ≤ n.log2 := (Nat.le_log2 hne).mpr hge
    generalize hk : n.log2 - f.fractionBits = k at *
    obtain ⟨q, rfl⟩ : 2 ^ k ∣ n := hk ▸ h
    have hpos : 0 < 2 ^ k := Nat.two_pow_pos k
    have hq : q ≠ 0 := fun hq => hne (by rw [hq, Nat.mul_zero])
    rw [Nat.mul_comm, log2_mul_two_pow hq] at hk hlog
    have hlead : q.log2 = f.fractionBits := by omega
    have hlow := Nat.log2_self_le hq
    have hhigh := @Nat.lt_log2_self q
    rw [hlead] at hlow hhigh
    rw [pow_succ] at hhigh
    have hsplit : k * 2 ^ f.fractionBits + q =
        (k + 1) * 2 ^ f.fractionBits + (q - 2 ^ f.fractionBits) := by
      rw [Nat.add_mul, Nat.one_mul]
      omega
    rw [Nat.mul_div_cancel_left q hpos, hsplit, units_of_exponent (by omega),
      Nat.add_sub_cancel' hlow, Nat.mul_comm]

/-! ## Rounding -/

theorem divideRound_of_dvd (h : 2 ^ s ∣ n) : divideRound n s = n / 2 ^ s := by
  have hpos : 0 < 2 ^ s := Nat.two_pow_pos s
  simp only [divideRound, Nat.shiftRight_eq_div_pow, Nat.shiftLeft_eq, Nat.one_mul,
    Nat.mod_eq_zero_of_dvd h, Nat.mul_zero, if_pos hpos]

/-- Rounding gives a pattern from its magnitude, with zero bits below the unit. -/
theorem round_units (f : Format) (m s : Nat) : f.round (f.units m <<< s) s = min m f.infinity := by
  have hhas := f.has_units m
  have hlog : (f.units m * 2 ^ s).log2 - (s + f.fractionBits) =
      (f.units m).log2 - f.fractionBits := by
    by_cases hzero : f.units m = 0
    · rw [hzero, Nat.zero_mul, Nat.log2_zero, Nat.zero_sub, Nat.zero_sub]
    · rw [log2_mul_two_pow hzero]
      omega
  have hdvd : 2 ^ (s + ((f.units m).log2 - f.fractionBits)) ∣ f.units m * 2 ^ s := by
    rw [Nat.add_comm, pow_add]
    exact Nat.mul_dvd_mul_right hhas _
  have hquot : f.units m * 2 ^ s / 2 ^ (s + ((f.units m).log2 - f.fractionBits)) =
      f.units m / 2 ^ ((f.units m).log2 - f.fractionBits) := by
    rw [Nat.add_comm, pow_add]
    exact Nat.mul_div_mul_right _ _ (Nat.two_pow_pos s)
  simp only [round, Nat.shiftLeft_eq, hlog, divideRound_of_dvd hdvd, hquot]
  exact congrArg (min · _) (f.units_strictMono.injective (units_pattern hhas))

/-- A magnitude that the format has and that is finite in it is that of the pattern it is rounded to. -/
theorem units_round (h : f.Has n) (hlt : n < f.units f.infinity) :
    f.round n 0 < f.infinity ∧ f.units (f.round n 0) = n := by
  have hpattern := units_pattern h
  generalize (n.log2 - f.fractionBits) * 2 ^ f.fractionBits + n / 2 ^ (n.log2 - f.fractionBits) = p
    at hpattern
  subst hpattern
  have hp := f.units_strictMono.lt_iff_lt.mp hlt
  have hround : f.round (f.units p) 0 = p := by
    have := f.round_units p 0
    rwa [Nat.shiftLeft_zero, Nat.min_eq_left (Nat.le_of_lt hp)] at this
  rw [hround]
  exact ⟨hp, rfl⟩

/-! ## Signs -/

theorem withSign_lt {negative : Bool} {m : Nat} (h : m < f.signWeight) :
    f.withSign negative m < 2 * f.signWeight := by
  unfold withSign
  split <;> omega

theorem magnitude_withSign {negative : Bool} {m : Nat} (h : m < f.signWeight) :
    f.magnitude (f.withSign negative m) = m := by
  unfold magnitude withSign
  split
  · rw [Nat.add_mod_left, Nat.mod_eq_of_lt h]
  · exact Nat.mod_eq_of_lt h

theorem negative_withSign {negative : Bool} {m : Nat} (h : m < f.signWeight) :
    f.negative (f.withSign negative m) = negative := by
  have hpos : 0 < f.signWeight := Nat.zero_lt_of_lt h
  cases negative with
  | false => simp [Format.negative, withSign, Nat.div_eq_of_lt h]
  | true => simp [Format.negative, withSign, Nat.add_div_left m hpos, Nat.div_eq_of_lt h]

theorem withSign_magnitude {bits : Nat} (h : bits < 2 * f.signWeight) :
    f.withSign (f.negative bits) (f.magnitude bits) = bits := by
  have hsplit := Nat.div_add_mod bits f.signWeight
  have hquot : bits / f.signWeight < 2 := Nat.div_lt_of_lt_mul (Nat.mul_comm .. ▸ h)
  unfold withSign Format.negative magnitude
  rcases Nat.le_one_iff_eq_zero_or_eq_one.mp (Nat.le_of_lt_succ hquot) with hzero | hone
  · simpa [hzero] using hsplit
  · simpa [hone] using hsplit

end Format

theorem shiftLeft_strictMono (s : Nat) : StrictMono fun n : Nat => n <<< s := fun m n h => by
  show m <<< s < n <<< s
  rw [Nat.shiftLeft_eq, Nat.shiftLeft_eq]
  exact Nat.mul_lt_mul_of_pos_right h (Nat.two_pow_pos s)

/-! ## The two widths -/

open Format (binary32 binary64)

/-- How many bits the unit of the narrower format lies above that of the wider one. -/
theorem unitScale_sub : binary64.unitScale - binary32.unitScale = 925 := by
  decide

namespace Binary64

theorem infinity_lt : binary64.infinity < binary64.signWeight := by
  decide

/-- A number of which the sign and the magnitude are given. -/
theorem magnitude_ofNat (negative : Bool) {m : Nat} (h : m < binary64.signWeight) :
    (⟨.ofNat (binary64.withSign negative m)⟩ : Binary64).magnitude = m ∧
      (⟨.ofNat (binary64.withSign negative m)⟩ : Binary64).negative = negative := by
  have hlt : binary64.withSign negative m < UInt64.size := Format.withSign_lt h
  have hbits : (UInt64.ofNat (binary64.withSign negative m)).toNat = binary64.withSign negative m :=
    UInt64.toNat_ofNat_of_lt hlt
  exact ⟨(congrArg binary64.magnitude hbits).trans (Format.magnitude_withSign h),
    (congrArg binary64.negative hbits).trans (Format.negative_withSign h)⟩

end Binary64

namespace Binary32

/-- The pattern stands for no number. -/
def isNaN (x : Binary32) : Bool := binary32.infinity < x.magnitude

variable {x : Binary32}

/-- A finite number has the same magnitude in the wider format, and stays finite. -/
theorem units_widen (h : x.magnitude < binary32.infinity) :
    x.widen.magnitude < binary64.infinity ∧
      binary64.units x.widen.magnitude = binary32.units x.magnitude <<< 925 ∧
      x.widen.negative = x.negative := by
  have hhas (s : Nat) : binary64.Has (binary32.units x.magnitude <<< s) := by
    rw [Nat.shiftLeft_eq]
    exact (binary32.has_units _).mul_two_pow (by decide) s
  have hlt : binary32.units x.magnitude <<< 925 < binary64.units binary64.infinity :=
    calc binary32.units x.magnitude <<< 925
      _ < binary32.units binary32.infinity <<< 925 :=
        shiftLeft_strictMono 925 (binary32.units_strictMono h)
      _ ≤ binary64.units binary64.infinity := by decide +kernel
  obtain ⟨hfinite, hunits⟩ := Format.units_round (hhas 925) hlt
  have hwiden : x.widen = ⟨.ofNat (binary64.withSign x.negative
      (binary64.round (binary32.units x.magnitude <<< 925) 0))⟩ := by
    simp only [widen, if_pos h, unitScale_sub]
  obtain ⟨hmagnitude, hnegative⟩ := Binary64.magnitude_ofNat x.negative
    (Nat.lt_trans hfinite Binary64.infinity_lt)
  rw [hwiden, hmagnitude, hnegative]
  exact ⟨hfinite, hunits, rfl⟩

theorem widen_of_infinite (h : x.magnitude = binary32.infinity) :
    x.widen.magnitude = binary64.infinity ∧ x.widen.negative = x.negative := by
  have hwiden : x.widen = ⟨.ofNat (binary64.withSign x.negative binary64.infinity)⟩ := by
    simp only [widen, h, Nat.lt_irrefl, if_false, if_true]
  rw [hwiden]
  exact Binary64.magnitude_ofNat x.negative Binary64.infinity_lt

theorem magnitude_le (h : x.isNaN = false) : x.magnitude ≤ binary32.infinity := by
  simpa [isNaN] using h

/-- Only finite numbers are widened to finite ones. -/
theorem magnitude_lt_of_widen (h : x.isNaN = false) (hfinite : x.widen.isFinite = true) :
    x.magnitude < binary32.infinity := by
  refine Nat.lt_of_le_of_ne (magnitude_le h) fun heq => ?_
  rw [Binary64.isFinite, (widen_of_infinite heq).1] at hfinite
  exact absurd hfinite (by simp)

/-- No number that is widened to a finite one is widened past the largest one. -/
theorem widen_le (h : x.isNaN = false) (hfinite : x.widen.isFinite = true) :
    x.widen.magnitude ≤ largest.widen.magnitude := by
  have hlt := magnitude_lt_of_widen h hfinite
  have hlargest : largest.magnitude + 1 = binary32.infinity := by decide
  have hmagnitude : x.magnitude ≤ largest.magnitude := by omega
  obtain ⟨-, hunits, -⟩ := units_widen hlt
  obtain ⟨-, hunits', -⟩ := units_widen (x := largest) (by omega)
  rw [← binary64.units_strictMono.le_iff_le, hunits, hunits']
  exact (shiftLeft_strictMono 925).monotone (binary32.units_strictMono.monotone hmagnitude)

/-- Narrowing undoes widening. -/
theorem narrow_widen (h : x.isNaN = false) : x.widen.narrow = x := by
  have hle := magnitude_le h
  have hbits : x.bits.toNat < 2 * binary32.signWeight := x.bits.toNat_lt
  suffices hnarrow : x.widen.narrow =
      ⟨.ofNat (binary32.withSign x.negative x.magnitude)⟩ by
    rw [hnarrow, negative, magnitude, Format.withSign_magnitude hbits, UInt32.ofNat_toNat]
  rcases Nat.lt_or_eq_of_le hle with hlt | heq
  · obtain ⟨hfinite, hunits, hnegative⟩ := units_widen hlt
    have hround := binary32.round_units x.magnitude 925
    rw [Nat.min_eq_left hle] at hround
    simp only [Binary64.narrow, Binary64.isFinite, hfinite, decide_true, if_true, unitScale_sub,
      hunits, hround, hnegative]
  · obtain ⟨hmagnitude, hnegative⟩ := widen_of_infinite heq
    simp only [Binary64.narrow, Binary64.isFinite, hmagnitude, Nat.lt_irrefl, decide_false,
      Bool.false_eq_true, if_false, if_true, hnegative, heq]

end Binary32

end RecordFile
