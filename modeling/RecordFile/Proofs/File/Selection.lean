import RecordFile.Proofs.File.Places
import RecordFile.Proofs.Leaves

/-!
# Selecting in the value of a place

What some steps select in the value of a place is the value of the place that they lead to
(`Layout.value_at?`). Where they lead to a place, no array is too short for them
(`Layout.overrun?_of_placeAt`); where an array has not so many elements, that is what is wrong with
them (`ArrayLayout.overrun?_of_le`).
-/

namespace RecordFile

/-- There is nothing below a scalar. -/
theorem Scalar.at?_ofDigits (kind : Scalar) (n i : Nat) (rest : List Nat) :
    (kind.ofDigits n).at? (i :: rest) = none := by
  cases kind <;> rfl

section

variable {rootSize : Nat} {f : File}

/-- What is at the end of some steps in the value of a place is the value of the place at the end of
the steps. -/
theorem Layout.value_at? {l : Layout} {offset : Nat} (steps : List UInt64) :
    (l.value rootSize f offset).at? (steps.map UInt64.toNat) =
      (l.placeAt rootSize f offset steps).map fun p => p.1.value rootSize f p.2 := by
  induction steps generalizing l offset with
  | nil => cases l <;> rfl
  | cons step rest ih =>
    have hbelow (row : List (Layout × Nat)) :
        (Value.array (rowValues rootSize f row)).at? ((step :: rest).map UInt64.toNat) =
          row[step.toNat]?.bind fun p => (p.1.placeAt rootSize f p.2 rest).map fun p =>
            p.1.value rootSize f p.2 := by
      rw [List.map_cons, Value.at?, rowValues, List.getElem?_map]
      cases row[step.toNat]? with
      | none => rfl
      | some p => exact ih
    have hplace : ((l.placeAt rootSize f offset (step :: rest)).map fun p =>
        p.1.value rootSize f p.2) = (l.children rootSize f offset)[step.toNat]?.bind fun p =>
          (p.1.placeAt rootSize f p.2 rest).map fun p => p.1.value rootSize f p.2 := by
      rw [placeAt]
      cases (l.children rootSize f offset)[step.toNat]? <;> rfl
    rw [hplace]
    cases l with
    | scalar kind => rw [List.map_cons, value_scalar, Scalar.at?_ofDigits]; rfl
    | record r =>
      rw [value_record, List.map_cons, Value.at?_record, List.map_snd_zip
        (by simp)]
      exact hbelow _
    | array a =>
      rw [value_array]
      exact hbelow _

/-- Below a place that is there, the steps go on in its value. -/
theorem Layout.overrun?_of_child {l : Layout} {offset i : Nat} {p : Layout × Nat}
    (h : (l.children rootSize f offset)[i]? = some p) (rest : List Nat) :
    (l.value rootSize f offset).overrun? (i :: rest) = (p.1.value rootSize f p.2).overrun? rest := by
  cases l with
  | scalar kind => cases h
  | record r =>
    obtain ⟨field, hfield, rfl⟩ : ∃ field, r.fields[i]? = some field ∧
        (field.layout, offset + field.offset) = p := by
      simpa [children, RecordLayout.places, List.getElem?_map] using h
    have hvalue : ((r.fields.map (·.name)).zip (rowValues rootSize f (r.places offset)))[i]? =
        some (field.name, field.layout.value rootSize f (offset + field.offset)) := by
      rw [List.getElem?_zip_eq_some]
      simp [rowValues, RecordLayout.places, hfield]
    rw [value_record, Value.overrun?, hvalue]
    rfl
  | array a =>
    rw [value_array, Value.overrun?, ArrayLayout.values, rowValues, List.getElem?_map, h]
    rfl

/-- An array that is too short for a step. -/
theorem ArrayLayout.overrun?_of_le {a : ArrayLayout} {offset i : Nat}
    (h : ((Layout.array a).children rootSize f offset).length ≤ i) (rest : List Nat) :
    ((Layout.array a).value rootSize f offset).overrun? (i :: rest) =
      some (i, ((Layout.array a).children rootSize f offset).length) := by
  have hlen : (a.values rootSize f offset).length =
      ((Layout.array a).children rootSize f offset).length := length_rowValues _
  rw [Layout.value_array, Value.overrun?, List.getElem?_eq_none (hlen.trans_le h), hlen]

/-- Steps that lead to a place run past no array. -/
theorem Layout.overrun?_of_placeAt {l : Layout} {offset : Nat} {steps : List UInt64}
    {p : Layout × Nat} (h : l.placeAt rootSize f offset steps = some p) :
    (l.value rootSize f offset).overrun? (steps.map UInt64.toNat) = none := by
  induction steps generalizing l offset with
  | nil => rw [List.map_nil, Value.overrun?]
  | cons step rest ih =>
    obtain ⟨child, hchild, h⟩ := placeAt_cons_eq_some.mp h
    rw [List.map_cons, overrun?_of_child hchild]
    exact ih h

end

end RecordFile
