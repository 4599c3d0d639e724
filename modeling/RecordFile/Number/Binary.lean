import RecordFile.Number.Word

/-!
# Binary floating point numbers as bit patterns

A floating point number is its bit pattern, a natural number, and every operation here is exact
arithmetic on natural numbers. Finite magnitudes of a format are whole multiples of its smallest
positive number, the *unit*, so `Format.units` gives the exact magnitude of a pattern as a natural
number and `Format.round` goes back: it takes a magnitude in units, with `shift` further bits below
the unit, to the nearest pattern, a tie to the pattern whose last bit is zero.

- `Binary64.ofInt` is the number nearest to an integer.
- `Binary64.toInt?` is the exact value of an integral number.
- `Binary64.narrow` and `Binary32.widen` convert between the two widths; widening is exact.
- `Binary64.same` is the numeric comparison: NaN differs from everything, the two zeros are equal.
-/

namespace RecordFile

/-- A binary interchange format: a sign bit, then the exponent, then the fraction. -/
structure Format where
  exponentBits : Nat
  fractionBits : Nat

namespace Format

/-- The format of 64-bit numbers. -/
def binary64 : Format := ⟨11, 52⟩

/-- The format of 32-bit numbers. -/
def binary32 : Format := ⟨8, 23⟩

/-- One is `2 ^ unitScale` units. -/
def unitScale (f : Format) : Nat := (1 <<< (f.exponentBits - 1)) + f.fractionBits - 2

/-- The pattern of positive infinity: patterns below it are finite, those above it are NaN. -/
def infinity (f : Format) : Nat := ((1 <<< f.exponentBits) - 1) <<< f.fractionBits

/-- The weight of the sign bit. -/
def signWeight (f : Format) : Nat := 1 <<< (f.exponentBits + f.fractionBits)

/-- The pattern without its sign. -/
def magnitude (f : Format) (bits : Nat) : Nat := bits % f.signWeight

/-- Whether the sign bit of the pattern is set. -/
def negative (f : Format) (bits : Nat) : Bool := bits / f.signWeight % 2 == 1

/-- The pattern `bits` with the sign bit set when `negative` holds. -/
def withSign (f : Format) (negative : Bool) (bits : Nat) : Nat :=
  if negative then f.signWeight + bits else bits

/-- The magnitude of a finite pattern, counted in units. -/
def units (f : Format) (magnitude : Nat) : Nat :=
  let exponent := magnitude >>> f.fractionBits
  let fraction := magnitude % (1 <<< f.fractionBits)
  if exponent = 0 then fraction else ((1 <<< f.fractionBits) + fraction) <<< (exponent - 1)

/-- The quotient of `n` by `2 ^ shift`, rounded to the nearest number, a tie to the even one. -/
def divideRound (n shift : Nat) : Nat :=
  let quotient := n >>> shift
  let rest := 2 * (n % (1 <<< shift))
  if rest < 1 <<< shift then quotient
  else if rest = 1 <<< shift then quotient + quotient % 2
  else quotient + 1

/-- The magnitude nearest to `n / 2 ^ shift` units; infinity when it is past the largest finite
number. A carry out of the fraction moves into the exponent, where it belongs. -/
def round (f : Format) (n shift : Nat) : Nat :=
  let exponent := Nat.log2 n - (shift + f.fractionBits)
  min ((exponent <<< f.fractionBits) + divideRound n (shift + exponent)) f.infinity

end Format

/-- A 64-bit floating point number. -/
structure Binary64 where
  bits : UInt64
  deriving DecidableEq, Repr

/-- A 32-bit floating point number. -/
structure Binary32 where
  bits : UInt32
  deriving DecidableEq, Repr

namespace Binary64

open Format (binary64)

/-- The pattern without its sign. -/
def magnitude (x : Binary64) : Nat := binary64.magnitude x.bits.toNat

/-- Whether the sign bit is set. -/
def negative (x : Binary64) : Bool := binary64.negative x.bits.toNat

def isNaN (x : Binary64) : Bool := binary64.infinity < x.magnitude

def isFinite (x : Binary64) : Bool := x.magnitude < binary64.infinity

/-- Numeric equality. -/
def same (x y : Binary64) : Bool :=
  !x.isNaN && !y.isNaN && (x.bits == y.bits || (x.magnitude == 0 && y.magnitude == 0))

/-- The number nearest to `n`. -/
def ofInt (n : Int) : Binary64 :=
  ⟨.ofNat (binary64.withSign (n < 0) (binary64.round (n.natAbs <<< binary64.unitScale) 0))⟩

/-- The exact value, if the number is an integer. -/
def toInt? (x : Binary64) : Option Int :=
  let units := binary64.units x.magnitude
  if x.isFinite ∧ units % (1 <<< binary64.unitScale) = 0 then
    let n := units >>> binary64.unitScale
    some (if x.negative then -n else n)
  else none

end Binary64

namespace Binary32

open Format (binary32 binary64)

/-- The pattern without its sign. -/
def magnitude (x : Binary32) : Nat := binary32.magnitude x.bits.toNat

/-- Whether the sign bit is set. -/
def negative (x : Binary32) : Bool := binary32.negative x.bits.toNat

/-- The bit that marks a NaN as quiet. -/
def quietBit : Nat := 0x400000

/-- The largest finite number. -/
def largest : Binary32 := ⟨0x7f7fffff⟩

/-- The 64-bit number of the same value. A NaN keeps its sign and its payload and becomes quiet. -/
def widen (x : Binary32) : Binary64 :=
  let shift := binary64.fractionBits - binary32.fractionBits
  let magnitude :=
    if x.magnitude < binary32.infinity then
      binary64.round ((binary32.units x.magnitude) <<< (binary64.unitScale - binary32.unitScale)) 0
    else if x.magnitude = binary32.infinity then binary64.infinity
    else binary64.infinity + ((x.magnitude - binary32.infinity ||| quietBit) <<< shift)
  ⟨.ofNat (binary64.withSign x.negative magnitude)⟩

end Binary32

namespace Binary64

open Format (binary32 binary64)

/-- The 32-bit number nearest to `x`, infinity when `x` is past the largest finite one. A NaN keeps
its sign and the upper part of its payload and becomes quiet. -/
def narrow (x : Binary64) : Binary32 :=
  let shift := binary64.fractionBits - binary32.fractionBits
  let magnitude :=
    if x.isFinite then
      binary32.round (binary64.units x.magnitude) (binary64.unitScale - binary32.unitScale)
    else if x.magnitude = binary64.infinity then binary32.infinity
    else binary32.infinity + ((x.magnitude - binary64.infinity) >>> shift ||| Binary32.quietBit)
  ⟨.ofNat (binary32.withSign x.negative magnitude)⟩

end Binary64

end RecordFile
