import RecordFile.Layout
import RecordFile.Text.Numeral

/-!
# Type expressions

A type expression is the name of a type with any number of array suffixes, the innermost first:
`[K]` for a fixed array, `[~K]` for a chained array and `[]` for a chained array of the default
capacity, where `K` is a positive numeral. `TypeExpression.read?` splits a text into the name and
the suffixes, and fails if some closing bracket at its end does not close a suffix.
-/

namespace RecordFile

/-- One array suffix. -/
structure ArraySuffix where
  capacity : Nat
  extent : Extent
  deriving DecidableEq, Repr

/-- A type name and the array suffixes behind it, the innermost first. -/
structure TypeExpression where
  base : String
  suffixes : List ArraySuffix
  deriving DecidableEq, Repr

namespace ArraySuffix

/-- The value of a numeral other than zero. -/
def positive? (text : List Char) : Option Nat := do
  let n ← Numeral.value? text
  if 0 < n then some n else none

/-- The suffix with `text` between its brackets. -/
def read? (defaultCapacity : Nat) : (text : List Char) → Option ArraySuffix
  | [] => some ⟨defaultCapacity, .chained⟩
  | '~' :: numeral => (positive? numeral).map (⟨·, .chained⟩)
  | numeral => (positive? numeral).map (⟨·, .fixed⟩)

end ArraySuffix

namespace TypeExpression

/-- Takes the suffixes off the end of a text, which is given backwards, and puts them in front of
`suffixes`. A suffix starts at the last opening bracket before its closing one. -/
def readBackwards? (defaultCapacity : Nat) (suffixes : List ArraySuffix) :
    (reversed : List Char) → Option TypeExpression
  | ']' :: rest =>
    match _h : rest.dropWhile (· ≠ '[') with
    | [] => none
    | _ :: outer => do
      let suffix ← ArraySuffix.read? defaultCapacity (rest.takeWhile (· ≠ '[')).reverse
      readBackwards? defaultCapacity (suffix :: suffixes) outer
  | reversed => some ⟨String.ofList reversed.reverse, suffixes⟩
termination_by reversed => reversed.length
decreasing_by
  have := (List.dropWhile_suffix (l := rest) (· ≠ '[')).length_le
  simp_all
  omega

/-- The name and the suffixes of a text. -/
def read? (defaultCapacity : Nat) (text : String) : Option TypeExpression :=
  readBackwards? defaultCapacity [] text.toList.reverse

end TypeExpression

namespace Layout

/-- The arrays that suffixes make of a type, the first suffix innermost. -/
def arrayOf (base : Layout) : List ArraySuffix → Except Error Layout
  | [] => .ok base
  | suffix :: rest => do
    let a ← ArrayLayout.make? base suffix.capacity suffix.extent
    arrayOf (.array a) rest

end Layout

end RecordFile
