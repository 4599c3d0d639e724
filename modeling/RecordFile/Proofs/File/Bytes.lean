import RecordFile.Bytes.Lemmas
import RecordFile.Device

/-!
# The bytes of a file

Files are compared byte by byte (`File.byte?`). A range is determined by its bytes
(`extract_congr`, `number_congr`); an overwrite changes the bytes of its range and no others
(`byte?_overwrite`, `extract_overwrite`), and an append changes none (`byte?_append_of_lt`).

`File.Blank` ranges hold zeros only, as everything does that was just appended.
-/

namespace RecordFile

namespace File

/-- The byte at `x`, if the file is that long. -/
def byte? (f : File) (x : Nat) : Option UInt8 := f.bytes.data[x]?

/-- The number that the `width` bytes from `offset` on hold. -/
def number (f : File) (offset width : Nat) : Nat :=
  littleEndianValue (f.bytes.extract offset (offset + width))

/-- The `length` bytes from `offset` on are there, and all of them are zero. -/
def Blank (f : File) (offset length : Nat) : Prop :=
  ∀ x, offset ≤ x → x < offset + length → f.byte? x = some 0

theorem byte?_eq_none_iff {f : File} {x : Nat} : f.byte? x = none ↔ f.size ≤ x :=
  Array.getElem?_eq_none_iff

theorem extract_congr {f g : File} {start stop : Nat}
    (h : ∀ x, start ≤ x → x < stop → g.byte? x = f.byte? x) :
    g.bytes.extract start stop = f.bytes.extract start stop := by
  apply ByteArray.ext
  simp only [ByteArray.data_extract]
  apply Array.ext_getElem?
  intro i
  by_cases hi : start + i < stop
  · have hx := h (start + i) (Nat.le_add_right ..) hi
    simp only [byte?] at hx
    simp only [Array.getElem?_extract, hx]
    split
    · split
      · rfl
      · rw [Array.getElem?_eq_none_iff]
        omega
    · split
      · rw [← hx, eq_comm, Array.getElem?_eq_none_iff]
        omega
      · rfl
  · simp only [Array.getElem?_extract]
    rw [if_neg (by omega), if_neg (by omega)]

theorem number_congr {f g : File} {offset width : Nat}
    (h : ∀ x, offset ≤ x → x < offset + width → g.byte? x = f.byte? x) :
    g.number offset width = f.number offset width := by
  rw [number, number, extract_congr h]

/-- A number as it was written. -/
theorem number_of_extract {f : File} {offset width n : Nat} (hn : n < 256 ^ width)
    (h : f.bytes.extract offset (offset + width) = littleEndian width n) :
    f.number offset width = n := by
  rw [number, h, littleEndianValue_littleEndian hn]

theorem number_lt {f : File} {offset width : Nat} : f.number offset width < 256 ^ width := by
  refine Nat.lt_of_lt_of_le (littleEndianValue_lt _) (Nat.pow_le_pow_right (by decide) ?_)
  rw [ByteArray.size_extract]
  omega

/-! ## Overwriting -/

theorem byte?_overwrite {f : File} {offset : Nat} {data : ByteArray}
    (h : offset + data.size ≤ f.size) (x : Nat) :
    File.byte? ⟨overwrite f.bytes offset data⟩ x =
      if offset ≤ x ∧ x < offset + data.size then data.data[x - offset]? else f.byte? x := by
  have hsize : f.bytes.data.size = f.size := rfl
  have hdata : data.data.size = data.size := rfl
  have hmin : min offset f.size = offset := by omega
  simp only [byte?, overwrite_eq, ByteArray.data_append, ByteArray.data_extract,
    Array.getElem?_append, Array.size_append, Array.size_extract, Array.getElem?_extract, hsize,
    hdata, hmin, Nat.sub_zero, Nat.zero_add]
  by_cases h₁ : x < offset
  · rw [if_pos (by omega), if_pos h₁, if_pos h₁, if_neg (by omega)]
  · by_cases h₂ : x < offset + data.size
    · rw [if_pos h₂, if_neg h₁, if_pos ⟨Nat.le_of_not_lt h₁, h₂⟩]
    · rw [if_neg h₂, if_neg (by omega : ¬ (offset ≤ x ∧ x < offset + data.size))]
      have hx : offset + data.size + (x - (offset + data.size)) = x := by omega
      rw [hx]
      split
      · rfl
      · rw [eq_comm, Array.getElem?_eq_none_iff]
        have : f.bytes.size = f.size := rfl
        omega

/-- A byte outside the overwritten range. -/
theorem byte?_overwrite_of_outside {f : File} {offset : Nat} {data : ByteArray}
    (h : offset + data.size ≤ f.size) {x : Nat} (hx : x < offset ∨ offset + data.size ≤ x) :
    File.byte? ⟨overwrite f.bytes offset data⟩ x = f.byte? x := by
  rw [byte?_overwrite h, if_neg (by omega)]

theorem extract_overwrite {f : File} {offset : Nat} {data : ByteArray}
    (h : offset + data.size ≤ f.size) :
    (overwrite f.bytes offset data).extract offset (offset + data.size) = data := by
  have hsize : (f.bytes.extract 0 offset).size = offset := by
    have : f.bytes.size = f.size := rfl
    rw [ByteArray.size_extract]
    omega
  rw [overwrite_eq, ByteArray.append_assoc]
  rw [ByteArray.extract_append, hsize, Nat.sub_self, Nat.add_sub_cancel_left,
    ByteArray.extract_append_eq_left rfl]
  have : (f.bytes.extract 0 offset).extract offset (offset + data.size) = ByteArray.empty := by
    rw [ByteArray.extract_eq_empty_iff, hsize]
    omega
  rw [this, ByteArray.empty_append]

/-- Overwriting with two strings at once is overwriting with one after the other. -/
theorem overwrite_append {f : File} {offset : Nat} {first second : ByteArray}
    (h : offset + (first ++ second).size ≤ f.size) :
    overwrite f.bytes offset (first ++ second) =
      overwrite (overwrite f.bytes offset first) (offset + first.size) second := by
  rw [ByteArray.size_append] at h
  have h₁ : offset + first.size ≤ f.size := by omega
  have hsize : File.size ⟨overwrite f.bytes offset first⟩ = f.size := size_overwrite h₁
  have h₂ : offset + first.size + second.size ≤ File.size ⟨overwrite f.bytes offset first⟩ := by
    omega
  apply ByteArray.ext
  apply Array.ext_getElem?
  intro x
  show File.byte? ⟨overwrite f.bytes offset (first ++ second)⟩ x =
    File.byte? ⟨overwrite (File.bytes ⟨overwrite f.bytes offset first⟩) _ second⟩ x
  rw [byte?_overwrite (by rw [ByteArray.size_append]; omega), byte?_overwrite h₂,
    byte?_overwrite h₁, ByteArray.size_append, ByteArray.data_append, Array.getElem?_append]
  have hfirst : first.data.size = first.size := rfl
  by_cases hx₁ : offset ≤ x ∧ x < offset + first.size
  · rw [if_pos (by omega), if_pos (by omega), if_neg (by omega), if_pos hx₁]
  by_cases hx₂ : offset + first.size ≤ x ∧ x < offset + first.size + second.size
  · rw [if_pos (by omega), if_neg (by omega), if_pos hx₂, hfirst, Nat.sub_add_eq]
  · rw [if_neg (by omega), if_neg hx₂, if_neg hx₁]

/-! ## Appending -/

theorem byte?_append_of_lt {f : File} {data : ByteArray} {x : Nat} (hx : x < f.size) :
    File.byte? ⟨f.bytes ++ data⟩ x = f.byte? x := by
  simp only [byte?, ByteArray.data_append]
  exact Array.getElem?_append_left hx

theorem byte?_append_of_le {f : File} {data : ByteArray} {x : Nat} (hx : f.size ≤ x) :
    File.byte? ⟨f.bytes ++ data⟩ x = data.data[x - f.size]? := by
  simp only [byte?, ByteArray.data_append]
  exact Array.getElem?_append_right hx

theorem size_append {f : File} {data : ByteArray} :
    File.size ⟨f.bytes ++ data⟩ = f.size + data.size := ByteArray.size_append

/-- What is appended is not overwritten. -/
theorem overwrite_of_append {f : File} {offset : Nat} {data rest : ByteArray}
    (h : offset + data.size ≤ f.size) :
    overwrite (f.bytes ++ rest) offset data = overwrite f.bytes offset data ++ rest := by
  have hsize : File.size ⟨overwrite f.bytes offset data⟩ = f.size := size_overwrite h
  have hlonger : offset + data.size ≤ File.size ⟨f.bytes ++ rest⟩ := by
    rw [size_append]
    omega
  apply ByteArray.ext
  apply Array.ext_getElem?
  intro x
  show File.byte? ⟨overwrite (File.bytes ⟨f.bytes ++ rest⟩) offset data⟩ x =
    File.byte? ⟨File.bytes ⟨overwrite f.bytes offset data⟩ ++ rest⟩ x
  rw [byte?_overwrite hlonger]
  rcases Nat.lt_or_ge x f.size with hx | hx
  · rw [byte?_append_of_lt hx, byte?_append_of_lt (by omega), byte?_overwrite h]
  · rw [if_neg (by omega), byte?_append_of_le hx, byte?_append_of_le (by omega), hsize]

/-! ## Zeros -/

theorem getElem?_zeros {length i : Nat} (h : i < length) : (zeros length).data[i]? = some 0 := by
  simp [zeros, h]

theorem zeros_append_zeros (m n : Nat) : zeros m ++ zeros n = zeros (m + n) := by
  apply ByteArray.ext
  simp [zeros, ByteArray.data_append, Array.replicate_append_replicate]

theorem blank_append_zeros (f : File) (length : Nat) :
    Blank ⟨f.bytes ++ zeros length⟩ f.size length := by
  intro x hx hlt
  rw [byte?_append_of_le hx]
  exact getElem?_zeros (by omega)

theorem blank_zeroed (size : Nat) : (File.zeroed size).Blank 0 size := by
  intro x _ hlt
  exact getElem?_zeros (by omega)

theorem size_zeroed (size : Nat) : (File.zeroed size).size = size := size_zeros size

theorem Blank.le_size {f : File} {offset length : Nat} (h : f.Blank offset length)
    (hpos : 0 < length) : offset + length ≤ f.size := by
  refine Nat.le_of_not_lt fun hlt => ?_
  have := h (offset + length - 1) (by omega) (by omega)
  rw [byte?_eq_none_iff.mpr (by omega)] at this
  cases this

theorem Blank.sub {f : File} {offset length offset' length' : Nat} (h : f.Blank offset length)
    (h₁ : offset ≤ offset') (h₂ : offset' + length' ≤ offset + length) :
    f.Blank offset' length' :=
  fun x hx hlt => h x (by omega) (by omega)

theorem Blank.congr {f g : File} {offset length : Nat} (h : f.Blank offset length)
    (hfg : ∀ x, offset ≤ x → x < offset + length → g.byte? x = f.byte? x) : g.Blank offset length :=
  fun x hx hlt => (hfg x hx hlt).trans (h x hx hlt)

theorem Blank.extract_eq {f : File} {offset length : Nat} (h : f.Blank offset length) :
    f.bytes.extract offset (offset + length) = zeros length := by
  rcases Nat.eq_zero_or_pos length with rfl | hpos
  · rw [Nat.add_zero, ByteArray.extract_same]
    rfl
  have hle : offset + length ≤ f.bytes.data.size := h.le_size hpos
  apply ByteArray.ext
  simp only [ByteArray.data_extract, zeros]
  refine Array.ext_getElem? fun i => ?_
  rw [Array.getElem?_extract, Array.getElem?_replicate]
  by_cases hi : i < length
  · rw [if_pos (by omega), if_pos hi]
    exact h (offset + i) (Nat.le_add_right ..) (by omega)
  · rw [if_neg (by omega), if_neg hi]

theorem littleEndianValue_zeros (length : Nat) : littleEndianValue (zeros length) = 0 := by
  simp only [littleEndianValue, zeros, Array.toList_replicate]
  induction length with
  | zero => rfl
  | succ length ih => simp [List.replicate_succ, byteDigitsValue, ih]

theorem Blank.number_eq {f : File} {offset length : Nat} (h : f.Blank offset length) :
    f.number offset length = 0 := by
  rw [number, h.extract_eq, littleEndianValue_zeros]

end File

end RecordFile
