import RecordFile.Number.Word

/-!
# Numerals

A numeral is a non-empty string of ASCII digits. `Numeral.value?` reads it as a word: leading zeros
are allowed, signs, blanks and digits of other scripts are not, and a value past the largest word
has no reading.
-/

namespace RecordFile.Numeral

/-- Whether `text` is a non-empty string of ASCII digits. -/
def isNumeral (text : List Char) : Bool :=
  !text.isEmpty && text.all Char.isDigit

/-- The number that a string of ASCII digits denotes, appended to the digits of `high`. -/
def valueFrom (high : Nat) : List Char → Nat
  | [] => high
  | c :: rest => valueFrom (10 * high + (c.toNat - '0'.toNat)) rest

/-- The value of a numeral, if it is a word. -/
def value? (text : List Char) : Option Nat :=
  if isNumeral text ∧ valueFrom 0 text < wordLimit then some (valueFrom 0 text) else none

theorem value?_eq_some_iff {text : List Char} {n : Nat} :
    value? text = some n ↔ isNumeral text ∧ valueFrom 0 text = n ∧ n < wordLimit := by
  unfold value?
  split <;> simp <;> grind

end RecordFile.Numeral
