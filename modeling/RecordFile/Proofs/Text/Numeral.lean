import Mathlib.Data.Nat.Digits.Lemmas
import RecordFile.Text.Numeral

/-!
# What numerals denote

A numeral denotes the number of its decimal digits (`value?_eq_some`). Every number has a numeral
(`isNumeral_toString`), and two numerals denote the same number exactly if they are the same behind
their leading zeros (`significant_eq_iff`).
-/

namespace RecordFile.Numeral

/-- The number that decimal digits denote. -/
def number (text : String) : Nat := Nat.ofDigitChars 10 text.toList 0

theorem valueFrom_eq (text : List Char) (high : Nat) :
    valueFrom high text = Nat.ofDigitChars 10 text high := by
  induction text generalizing high with
  | nil => rfl
  | cons c rest ih => exact ih _

/-- A numeral is read as the number it denotes, if that is a word. -/
theorem value?_eq_some {piece : List Char} {n : Nat} :
    value? piece = some n ↔
      isNumeral piece ∧ number (String.ofList piece) = n ∧ n < wordLimit := by
  rw [value?_eq_some_iff, valueFrom_eq, number, String.toList_ofList]

theorem isNumeral_iff {text : List Char} :
    isNumeral text = true ↔ text ≠ [] ∧ ∀ c ∈ text, c.isDigit = true := by
  simp [isNumeral]

/-- Every number has a numeral. -/
theorem isNumeral_toString (n : Nat) :
    isNumeral (toString n).toList ∧ number (toString n) = n := by
  have hdigits : (toString n).toList = Nat.toDigits 10 n := Nat.toList_repr
  rw [number, hdigits]
  exact ⟨isNumeral_iff.mpr ⟨Nat.toDigits_ne_nil,
    fun c hc => Nat.isDigit_of_mem_toDigits (by decide) (by decide) hc⟩,
    Nat.ofDigitChars_ten_toDigits⟩

/-! ## Leading zeros -/

/-- The digits behind the leading zeros. -/
def significant (text : String) : List Char := text.toList.dropWhile (· = '0')

/-- The value of a digit. -/
def digit (c : Char) : Nat := c.toNat - '0'.toNat

theorem ofDigitChars_eq_ofDigits (text : List Char) :
    Nat.ofDigitChars 10 text 0 = Nat.ofDigits 10 (text.map digit).reverse := by
  rw [Nat.ofDigits_eq_foldr, List.foldr_reverse, List.foldl_map, Nat.ofDigitChars]
  simp only [digit, Nat.cast_id, Nat.add_comm]

theorem ofDigitChars_dropWhile (text : List Char) :
    Nat.ofDigitChars 10 (text.dropWhile (· = '0')) 0 = Nat.ofDigitChars 10 text 0 := by
  induction text with
  | nil => rfl
  | cons c rest ih =>
    rw [List.dropWhile_cons]
    split
    · rename_i hzero
      obtain rfl : c = '0' := by simpa using hzero
      exact ih
    · rfl

theorem digit_lt {c : Char} (h : c.isDigit = true) : digit c < 10 := by
  have := Char.isDigit_iff_toNat.mp h
  have hnine : '9'.toNat = '0'.toNat + 9 := rfl
  unfold digit
  omega

theorem digitChar_digit {c : Char} (h : c.isDigit = true) : (digit c).digitChar = c := by
  have := Char.isDigit_iff_toNat.mp h
  have hzero : '0'.toNat = 48 := rfl
  rw [← Char.toNat_inj, Nat.toNat_digitChar_of_lt_ten (digit_lt h), digit]
  omega

/-- Digits are determined by their values. -/
theorem map_digitChar_map_digit {text : List Char} (h : ∀ c ∈ text, c.isDigit = true) :
    (text.map digit).map Nat.digitChar = text := by
  rw [List.map_map]
  exact (List.map_congr_left fun c hc => digitChar_digit (h c hc)).trans (List.map_id text)

/-- Without leading zeros the digits are those of the number. -/
theorem digits_ofDigitChars {text : List Char} (hdigits : ∀ c ∈ text, c.isDigit = true)
    (hhead : ∀ h : text ≠ [], text.head h ≠ '0') :
    Nat.digits 10 (Nat.ofDigitChars 10 text 0) = (text.map digit).reverse := by
  rw [ofDigitChars_eq_ofDigits]
  refine Nat.digits_ofDigits 10 (by decide) _ (fun n hn => ?_) fun hne => ?_
  · obtain ⟨c, hc, rfl⟩ := List.mem_map.mp (List.mem_reverse.mp hn)
    exact digit_lt (hdigits c hc)
  · have htext : text ≠ [] := by simpa using hne
    rw [List.getLast_reverse, List.head_map]
    intro hzero
    refine hhead htext ?_
    rw [← digitChar_digit (hdigits _ (List.head_mem htext)), hzero]
    rfl

/-- Two numerals denote the same number exactly if they differ at most in leading zeros. -/
theorem significant_eq_iff {text text' : String} (h : isNumeral text.toList)
    (h' : isNumeral text'.toList) :
    significant text = significant text' ↔ number text = number text' := by
  have hdigits : ∀ {t : String}, isNumeral t.toList → ∀ c ∈ significant t, c.isDigit = true :=
    fun ht c hc => (isNumeral_iff.mp ht).2 c ((List.dropWhile_suffix _).mem hc)
  have hhead : ∀ (t : String) (hne : significant t ≠ []), (significant t).head hne ≠ '0' :=
    fun t hne => of_decide_eq_false (List.head_dropWhile_not (· = '0') hne)
  constructor
  · intro heq
    rw [number, number, ← ofDigitChars_dropWhile, ← ofDigitChars_dropWhile text'.toList]
    exact congrArg (Nat.ofDigitChars 10 · 0) heq
  · intro heq
    have hsame : (significant text).map digit = (significant text').map digit := by
      rw [← List.reverse_inj, ← digits_ofDigitChars (hdigits h) (hhead text),
        ← digits_ofDigitChars (hdigits h') (hhead text'), significant, significant,
        ofDigitChars_dropWhile, ofDigitChars_dropWhile]
      exact congrArg (Nat.digits 10) heq
    rw [← map_digitChar_map_digit (hdigits h), hsame, map_digitChar_map_digit (hdigits h')]

end RecordFile.Numeral
