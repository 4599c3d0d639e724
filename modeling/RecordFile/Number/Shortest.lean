import RecordFile.Number.Binary

/-!
# The shortest decimal of a floating point number

Every decimal that lies between a number's two half-way points to its neighbours reads back as that
number. `Binary64.shortest` looks for such a decimal on the coarsest grid `10 ^ exponent` that has
one, which is the grid of the fewest digits, and takes the point of that grid nearest to the number.
All comparisons are exact, in units of the format.

`Binary64.text` writes that decimal without an exponent: an integer has no decimal point, and a
number below one starts with `0.`.
-/

namespace RecordFile

/-- The decimal `digits * 10 ^ exponent`. -/
structure Decimal where
  digits : Nat
  exponent : Int
  deriving DecidableEq, Repr

namespace Decimal

/-- The decimal in positional notation. -/
def text (d : Decimal) : String :=
  match d.exponent with
  | .ofNat zeros => toString (d.digits * Nat.pow 10 zeros)
  | .negSucc n =>
    let places := n + 1
    let fraction := toString (d.digits % Nat.pow 10 places)
    toString (d.digits / Nat.pow 10 places) ++ "." ++
      String.ofList (List.replicate (places - fraction.length) '0') ++ fraction

end Decimal

namespace Format

/-- The point of the grid `10 ^ exponent` nearest to a finite non-zero magnitude among those that
round to it. -/
def gridPoint? (f : Format) (magnitude : Nat) (exponent : Int) : Option Nat :=
  let factor := Nat.pow 10 (-exponent).toNat
  let step := (2 * Nat.pow 10 exponent.toNat) <<< f.unitScale
  let value := 2 * f.units magnitude * factor
  let low := (f.units (magnitude - 1) + f.units magnitude) * factor
  let high := (f.units magnitude + f.units (magnitude + 1)) * factor
  let inside (point : Nat) : Bool :=
    if magnitude % 2 = 0 then low ≤ point * step && point * step ≤ high
    else low < point * step && point * step < high
  let below := value / step
  let nearer := if 2 * (value % step) ≤ step then [below, below + 1] else [below + 1, below]
  nearer.find? inside

/-- The exponents of the grids, from the coarsest on. Seventeen digits single out any 64-bit number,
so the last grid is finer than any number needs. -/
def gridExponents : List Int :=
  (List.range 660).map fun (i : Nat) => (310 : Int) - i

/-- The shortest decimal that rounds to a finite magnitude. -/
def shortest (f : Format) (magnitude : Nat) : Decimal :=
  if magnitude = 0 then ⟨0, 0⟩
  else (gridExponents.findSome? fun exponent =>
    (f.gridPoint? magnitude exponent).map (⟨·, exponent⟩)).getD ⟨0, 0⟩

end Format

namespace Binary64

/-- The shortest decimal that reads back as the number, in positional notation. -/
def text (x : Binary64) : String :=
  let sign := if x.negative then "-" else ""
  if x.isNaN then "NaN"
  else if x.isFinite then sign ++ (Format.binary64.shortest x.magnitude).text
  else sign ++ "inf"

end Binary64

end RecordFile
