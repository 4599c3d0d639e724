/-!
# Words

Sizes, offsets, capacities and links of a record file are 64-bit words. They are kept as natural
numbers, so that ordinary arithmetic and `omega` apply, and the operations here say what happens
at the end of the range:

- `checkedAdd` and `checkedMul` give nothing when the exact result is not a word,
- `saturatingAdd` stays at the largest word,
- `Overflow.add` does as the program is built: the sum wraps around, or there is none.
-/

namespace RecordFile

/-- The first natural number that is not a 64-bit word. -/
abbrev wordLimit : Nat := UInt64.size

/-- The sum of `a` and `b`, if it is a word. -/
def checkedAdd (a b : Nat) : Option Nat :=
  if a + b < wordLimit then some (a + b) else none

/-- The product of `a` and `b`, if it is a word. -/
def checkedMul (a b : Nat) : Option Nat :=
  if a * b < wordLimit then some (a * b) else none

/-- The sum of `a` and `b`, or the largest word when the sum is past it. -/
def saturatingAdd (a b : Nat) : Nat :=
  min (a + b) (wordLimit - 1)

/-- What becomes of a sum that is not a word. It is settled when a program is built. -/
inductive Overflow where
  /-- The sum is taken modulo the number of words. -/
  | wraps
  /-- The program breaks off. -/
  | breaksOff
  deriving DecidableEq, Repr

/-- The sum of a word and a number. -/
def Overflow.add (m : UInt64) (n : Nat) : Overflow → Option UInt64
  | wraps => some (m + .ofNat n)
  | breaksOff => (checkedAdd m.toNat n).map .ofNat

theorem checkedAdd_eq_some_iff {a b c : Nat} :
    checkedAdd a b = some c ↔ a + b = c ∧ c < wordLimit := by
  unfold checkedAdd
  split <;> simp <;> omega

/-- There is a sum, or it is past the words. -/
theorem checkedAdd_cases (a b : Nat) :
    checkedAdd a b = some (a + b) ∨ checkedAdd a b = none ∧ wordLimit ≤ a + b := by
  unfold checkedAdd
  split
  · exact .inl rfl
  · exact .inr ⟨rfl, by omega⟩

/-- There is a sum, or it is past the words and breaks the program off. -/
theorem Overflow.add_cases (overflow : Overflow) (m : UInt64) (n : Nat) :
    overflow.add m n = some (m + .ofNat n) ∨
      overflow = breaksOff ∧ overflow.add m n = none ∧ wordLimit ≤ m.toNat + n := by
  cases overflow with
  | wraps => exact .inl rfl
  | breaksOff =>
    rcases checkedAdd_cases m.toNat n with hsome | ⟨hnone, hlimit⟩
    · exact .inl (by rw [add, hsome, Option.map_some, UInt64.ofNat_add, UInt64.ofNat_toNat])
    · exact .inr ⟨rfl, by rw [add, hnone, Option.map_none], hlimit⟩

theorem checkedMul_eq_some_iff {a b c : Nat} :
    checkedMul a b = some c ↔ a * b = c ∧ c < wordLimit := by
  unfold checkedMul
  split <;> simp <;> omega

theorem saturatingAdd_of_lt {a b : Nat} (h : a + b < wordLimit) : saturatingAdd a b = a + b := by
  unfold saturatingAdd
  omega

end RecordFile
