import RecordFile.Proofs.Layout.WellFormed
import RecordFile.Proofs.Tree

/-!
# The scalars in a tree of values

`Value.at?` is the value at the end of some steps, which are positions of fields and indices of
elements; if there is none because an array is too short, `Value.overrun?` tells the first step where.
At the end of some steps a layout has a scalar kind (`Layout.kind?`), and a value that is
written may supply something (`Layout.supplied?`), which it finds by the names of fields.

`Scalar.Drifts` says what may become of one scalar while a write is under way: it stays, or it comes
into being as a zero, or it becomes what is supplied for it. No scalar does anything else when a value
is written over another one (`Layout.drifts_overlay`), and writing the same value once more changes
nothing (`Layout.overlay_overlay`).
-/

namespace RecordFile

/-- The value at the end of some steps. -/
def Value.at? : Value → List Nat → Option Value
  | v, [] => some v
  | record fields, i :: rest => fields[i]?.bind fun field => field.2.at? rest
  | array items, i :: rest => items[i]?.bind fun item => item.at? rest
  | _, _ :: _ => none

/-- The first of the steps that leads past the end of an array, and how many elements the array has. -/
def Value.overrun? : Value → List Nat → Option (Nat × Nat)
  | _, [] => none
  | record fields, i :: rest => fields[i]?.bind fun field => field.2.overrun? rest
  | array items, i :: rest =>
    match items[i]? with
    | some item => item.overrun? rest
    | none => some (i, items.length)
  | _, _ :: _ => none

namespace Value

/-- Below a record, the names of its fields do not matter. -/
theorem at?_record (fields : List (String × Value)) (i : Nat) (rest : List Nat) :
    (record fields).at? (i :: rest) = (array (fields.map Prod.snd)).at? (i :: rest) := by
  rw [at?, at?, List.getElem?_map, Option.bind_map]
  rfl

end Value

namespace Layout

/-- The kind of the scalar at the end of some steps. -/
def kind? : Layout → List Nat → Option Scalar
  | scalar kind, [] => some kind
  | record r, i :: rest => r.fields[i]?.bind fun f => f.layout.kind? rest
  | array a, _ :: rest => a.element.kind? rest
  | _, _ => none

/-- What a value that is written to a type supplies at the end of some steps. -/
def supplied? : Layout → Value → List Nat → Option Value
  | _, v, [] => some v
  | record r, .record supplied, i :: rest =>
    r.fields[i]?.bind fun f => (supplied.lookup f.name).bind fun v => f.layout.supplied? v rest
  | array a, .array items, i :: rest => items[i]?.bind fun v => a.element.supplied? v rest
  | _, _, _ => none

end Layout

/-- What becomes of a scalar, which need not be there, when it is or is not written: it stays, it
comes into being as a zero, or it becomes what the supplied value is stored as. -/
def Scalar.Drifts (kind : Scalar) (supplied? old now : Option Value) : Prop :=
  now = old ∨ old = none ∧ now = some (kind.ofDigits 0) ∨
    ∃ x y, supplied? = some x ∧ kind.encode x >>= kind.decode = .ok y ∧ now = some y

namespace Scalar.Drifts

variable {kind : Scalar} {supplied? a b c : Option Value}

theorem refl : kind.Drifts supplied? a a := .inl rfl

theorem trans (h : kind.Drifts supplied? a b) (h' : kind.Drifts supplied? b c) :
    kind.Drifts supplied? a c := by
  rcases h' with rfl | ⟨rfl, rfl⟩ | h'
  · exact h
  · rcases h with rfl | ⟨-, h⟩ | ⟨_, _, -, -, h⟩
    · exact .inr (.inl ⟨rfl, rfl⟩)
    · cases h
    · cases h
  · exact .inr (.inr h')

/-- What stays where nothing is supplied may stay where something is. -/
theorem of_none (h : kind.Drifts none a b) : kind.Drifts supplied? a b := by
  rcases h with h | h | ⟨_, _, h, -⟩
  · exact .inl h
  · exact .inr (.inl h)
  · cases h

end Scalar.Drifts

/-! ## Zeros -/

/-- The scalars of a type's zero that are there are zeros. -/
theorem Layout.zero_at? {l : Layout} {steps : List Nat} {kind : Scalar}
    (h : l.kind? steps = some kind) :
    l.zero.at? steps = none ∨ l.zero.at? steps = some (kind.ofDigits 0) := by
  induction steps generalizing l with
  | nil =>
    cases l with
    | scalar k =>
      obtain rfl := Option.some.inj h
      exact .inr rfl
    | record r => cases h
    | array a => cases h
  | cons i rest ih =>
    cases l with
    | scalar k => cases h
    | record r =>
      obtain ⟨f, hf, h⟩ := Option.bind_eq_some_iff.mp h
      rw [zero_record, Value.at?_record, List.map_snd_zip (by simp), Value.at?, List.getElem?_map, hf]
      exact ih h
    | array a =>
      rw [zero_array, Value.at?, List.getElem?_replicate]
      split
      · exact ih h
      · exact .inl rfl

/-! ## Overlays -/

/-- A list as long as an array that has been made long enough is long enough. -/
theorem ArrayLayout.lengthen_of_length {a : ArrayLayout} {n : Nat} {items old : List Value}
    (h : items.length = (a.lengthen n old).length) : a.lengthen n items = items := by
  cases hext : a.extent with
  | fixed => exact lengthen_of_fixed hext n items
  | chained =>
    simp only [lengthen, hext, List.length_append, List.length_replicate] at h ⊢
    rw [Nat.sub_eq_zero_of_le (by omega), List.replicate_zero, List.append_nil]

namespace Layout

theorem length_overlayItems {change : Value → Value → Value} (supplied old : List Value) :
    (overlayItems change supplied old).length = old.length := by
  simp only [overlayItems, List.length_append, List.length_zipWith, List.length_drop]
  omega

/-- The item at a position, changed by what is supplied for it. -/
theorem getElem?_overlayItems {change : Value → Value → Value} (supplied old : List Value) (i : Nat) :
    (overlayItems change supplied old)[i]? = old[i]?.map fun w =>
      match supplied[i]? with
      | some v => change v w
      | none => w := by
  induction supplied generalizing old i with
  | nil => simp [overlayItems]
  | cons v supplied ih =>
    cases old with
    | nil => simp [overlayItems]
    | cons w old =>
      cases i with
      | zero => simp [overlayItems]
      | succ i => simpa [overlayItems] using ih old i

/-- An item that is overlaid the same way need not be told apart. -/
theorem overlayItems_set {change : Value → Value → Value} {supplied old : List Value} {i : Nat}
    {v w w' : Value} (hv : supplied[i]? = some v) (hw : old[i]? = some w)
    (h : change v w' = change v w) :
    overlayItems change supplied (old.set i w') = overlayItems change supplied old := by
  refine List.ext_getElem? fun j => ?_
  rw [getElem?_overlayItems, getElem?_overlayItems]
  by_cases hj : i = j
  · subst hj
    rw [List.getElem?_set_self (List.getElem?_eq_some_iff.mp hw).1, hw, hv]
    exact congrArg some h
  · rw [List.getElem?_set_ne hj]

/-- A field that is overlaid the same way need not be told apart. -/
theorem overlayFields_set {supplied : List (String × Value)} {fields : List FieldLayout}
    {names : List String} {old : List Value} {i : Nat} {f : FieldLayout} {v w w' : Value}
    (hf : fields[i]? = some f) (hv : supplied.lookup f.name = some v) (hw : old[i]? = some w)
    (h : f.layout.overlay v w' = f.layout.overlay v w) :
    overlayFields supplied fields (names.zip (old.set i w')) =
      overlayFields supplied fields (names.zip old) := by
  induction fields generalizing names old i with
  | nil => cases hf
  | cons g fields ih =>
    obtain ⟨name, layout, start⟩ := g
    obtain _ | ⟨n, names⟩ := names
    · rfl
    obtain _ | ⟨x, old⟩ := old
    · cases hw
    obtain _ | i := i
    · obtain rfl := Option.some.inj hf
      obtain rfl := Option.some.inj hw
      simp only [List.set_cons_zero, List.zip_cons_cons, overlayFields, hv, h]
    · simp only [List.set_cons_succ, List.zip_cons_cons, overlayFields, ih hf hw]

/-- The field at a position, with what is supplied under its name written over it. -/
theorem getElem?_overlayFields (supplied : List (String × Value)) (fields : List FieldLayout)
    (old : List (String × Value)) (i : Nat) :
    ((overlayFields supplied fields old).map Prod.snd)[i]? = (old.map Prod.snd)[i]?.map fun w =>
      match fields[i]?.bind fun f => (supplied.lookup f.name).map (f.layout, ·) with
      | some (l, v) => l.overlay v w
      | none => w := by
  induction fields generalizing old i with
  | nil => cases old <;> simp [overlayFields]
  | cons f fields ih =>
    obtain ⟨name, layout, start⟩ := f
    cases old with
    | nil => simp [overlayFields]
    | cons field old =>
      obtain ⟨n, w⟩ := field
      cases i with
      | zero => cases h : supplied.lookup name <;> simp [overlayFields, h]
      | succ i => simpa [overlayFields] using ih old i

/-- A record is written over a record, and nothing else is written over one. -/
theorem record_overlay_cases (r : RecordLayout) (v old : Value) :
    (∃ supplied fields, v = .record supplied ∧ old = .record fields) ∨
      (record r).overlay v old = old := by
  obtain ⟨name, fields, size, hasChain⟩ := r
  cases v <;> cases old <;> simp [overlay]

/-- An array is written over an array, and nothing else is written over one. -/
theorem array_overlay_cases (a : ArrayLayout) (v old : Value) :
    (∃ supplied items, v = .array supplied ∧ old = .array items) ∨
      (array a).overlay v old = old := by
  obtain ⟨element, capacity, extent, size, capacity_pos⟩ := a
  cases v <;> cases old <;> simp [overlay]

/-- The fields of a record that is written over another one. -/
theorem record_overlay (r : RecordLayout) (supplied old : List (String × Value)) :
    (record r).overlay (.record supplied) (.record old) =
      .record (overlayFields supplied r.fields old) := by
  obtain ⟨name, fields, size, hasChain⟩ := r
  rw [overlay]

/-- Writing the same fields once more changes nothing, if this is so of each of them. -/
theorem overlayFields_overlayFields {supplied : List (String × Value)} {fields : List FieldLayout}
    (h : ∀ f ∈ fields, ∀ v old, f.layout.overlay v (f.layout.overlay v old) = f.layout.overlay v old)
    (old : List (String × Value)) :
    overlayFields supplied fields (overlayFields supplied fields old) =
      overlayFields supplied fields old := by
  induction fields generalizing old with
  | nil => cases old <;> simp only [overlayFields]
  | cons f fields ih =>
    obtain ⟨name, layout, start⟩ := f
    obtain ⟨hf, h⟩ := List.forall_mem_cons.mp h
    cases old with
    | nil => simp [overlayFields]
    | cons field old =>
      rw [overlayFields, overlayFields, ih h]
      cases supplied.lookup name with
      | none => rfl
      | some v => simp only [hf]

/-- Writing a value once more changes nothing. -/
theorem overlay_overlay {l : Layout} (hw : l.WellFormed) (v old : Value) :
    l.overlay v (l.overlay v old) = l.overlay v old := by
  induction hw generalizing v old with
  | scalar kind =>
    simp only [overlay]
    split <;> rfl
  | @record r own fields ih =>
    rcases record_overlay_cases r v old with ⟨supplied, old, rfl, rfl⟩ | h
    · rw [record_overlay, record_overlay, overlayFields_overlayFields ih]
    · rw [h, h]
  | @array a own element ih =>
    rcases array_overlay_cases a v old with ⟨items, old, rfl, rfl⟩ | h
    · rw [overlay_array, overlay_array, ArrayLayout.lengthen_of_length (length_overlayItems ..)]
      refine congrArg Value.array (List.ext_getElem? fun i => ?_)
      simp only [getElem?_overlayItems, Option.map_map]
      congr 1
      funext w
      cases items[i]? with
      | none => rfl
      | some v => exact ih v w
    · rw [h, h]

/-- What becomes of the scalars when zeros are put behind the items of an array. -/
theorem drifts_append_zeros {a : ArrayLayout} {supplied? : Option Value} (items : List Value)
    (n : Nat) {steps : List Nat} {kind : Scalar} (h : (array a).kind? steps = some kind) :
    kind.Drifts supplied? ((Value.array items).at? steps)
      ((Value.array (items ++ List.replicate n a.element.zero)).at? steps) := by
  obtain _ | ⟨i, rest⟩ := steps
  · cases h
  simp only [Value.at?, List.getElem?_append, List.getElem?_replicate]
  split
  · exact .refl
  · rename_i hi
    rw [List.getElem?_eq_none (Nat.le_of_not_lt hi), Option.bind_none]
    split
    · rcases zero_at? (l := a.element) h with hzero | hzero
      · exact .inl hzero
      · exact .inr (.inl ⟨rfl, hzero⟩)
    · exact .refl

/-- What becomes of the scalars when an array is made longer. -/
theorem drifts_lengthen {a : ArrayLayout} {supplied? : Option Value} (n : Nat) (items : List Value)
    {steps : List Nat} {kind : Scalar} (h : (array a).kind? steps = some kind) :
    kind.Drifts supplied? ((Value.array items).at? steps)
      ((Value.array (a.lengthen n items)).at? steps) := by
  cases hext : a.extent with
  | fixed =>
    rw [ArrayLayout.lengthen_of_fixed hext]
    exact .refl
  | chained =>
    simp only [ArrayLayout.lengthen, hext]
    exact drifts_append_zeros items _ h

/-- What becomes of the scalars when a value is written over another one. -/
theorem drifts_overlay {l : Layout} (v old : Value) {steps : List Nat} {kind : Scalar}
    (h : l.kind? steps = some kind) :
    kind.Drifts (l.supplied? v steps) (old.at? steps) ((l.overlay v old).at? steps) := by
  induction steps generalizing l v old with
  | nil =>
    cases l with
    | scalar k =>
      obtain rfl := Option.some.inj h
      simp only [Value.at?, supplied?, overlay]
      cases hv : k.encode v >>= k.decode with
      | error e => exact .refl
      | ok y => exact .inr (.inr ⟨v, y, rfl, hv, rfl⟩)
    | record r => cases h
    | array a => cases h
  | cons i rest ih =>
    cases l with
    | scalar k => cases h
    | record r =>
      obtain ⟨f, hf, hkind⟩ := Option.bind_eq_some_iff.mp h
      rcases record_overlay_cases r v old with ⟨supplied, old, rfl, rfl⟩ | heq
      · rw [record_overlay, Value.at?_record, Value.at?_record, Value.at?, Value.at?,
          getElem?_overlayFields, supplied?, hf]
        cases (old.map Prod.snd)[i]? with
        | none => exact .refl
        | some w =>
          cases hv : supplied.lookup f.name with
          | none => simpa [hv] using .refl
          | some v => simpa [hv] using ih v w hkind
      · rw [heq]
        exact .refl
    | array a =>
      rcases array_overlay_cases a v old with ⟨items, old, rfl, rfl⟩ | heq
      · rw [overlay_array]
        refine (drifts_lengthen items.length old h).trans ?_
        rw [Value.at?, Value.at?, getElem?_overlayItems, supplied?]
        cases (a.lengthen items.length old)[i]? with
        | none => exact .refl
        | some w =>
          cases items[i]? with
          | none => exact .refl
          | some v => exact ih v w h
      · rw [heq]
        exact .refl

end Layout

end RecordFile
