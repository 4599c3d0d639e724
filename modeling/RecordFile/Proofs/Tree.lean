import RecordFile.Layout
import RecordFile.Scalar.Codec
import Mathlib

/-!
# Trees of values

What reading and writing a store mean for the value of its root record, without a file.

- `Layout.zero` is the value of a type whose bytes are all zero.
- `ArrayLayout.lengthen` makes a chained array longer by whole blocks of zero values, as many as it
  takes for `n` elements; it makes none shorter.
- `Layout.overlay` writes a value over another one: scalars become what their encoding is decoded
  to, fields are matched by name, elements by position. What is not supplied stays.
- `Layout.update` changes the value at the end of some steps. The chained arrays on the way become
  long enough for the steps.
-/

namespace RecordFile

mutual

/-- The value of zero bytes. -/
def Layout.zero : Layout → Value
  | .scalar kind => kind.ofDigits 0
  | .record ⟨_, fields, _, _⟩ => .record (Layout.zeroFields fields)
  | .array ⟨element, capacity, _, _, _⟩ => .array (List.replicate capacity element.zero)

def Layout.zeroFields : List FieldLayout → List (String × Value)
  | [] => []
  | ⟨name, layout, _⟩ :: rest => (name, layout.zero) :: zeroFields rest

end

namespace ArrayLayout

/-- How many blocks hold `n` elements. -/
def blocksFor (a : ArrayLayout) (n : Nat) : Nat := (n + a.capacity - 1) / a.capacity

/-- The elements of an array that has been made long enough for `n` elements. -/
def lengthen (a : ArrayLayout) (n : Nat) (items : List Value) : List Value :=
  match a.extent with
  | .fixed => items
  | .chained =>
    items ++ List.replicate (a.blocksFor n * a.capacity - items.length) a.element.zero

end ArrayLayout

/-- The items of `old`, the first ones changed by what is supplied for them. -/
def overlayItems (change : Value → Value → Value) (supplied old : List Value) : List Value :=
  List.zipWith change supplied old ++ old.drop supplied.length

namespace Layout

mutual

/-- The value `old` of a type with a supplied value written over it. -/
def overlay : Layout → (supplied old : Value) → Value
  | scalar kind, supplied, old =>
    match kind.encode supplied >>= kind.decode with
    | .ok v => v
    | .error _ => old
  | record ⟨_, fields, _, _⟩, .record supplied, .record old =>
    .record (overlayFields supplied fields old)
  | array ⟨element, capacity, extent, size, capacity_pos⟩, .array supplied, .array old =>
    let a : ArrayLayout := ⟨element, capacity, extent, size, capacity_pos⟩
    .array (overlayItems (overlay element) supplied (a.lengthen supplied.length old))
  | _, _, old => old

/-- The fields of a record with the supplied ones written over them. -/
def overlayFields (supplied : List (String × Value)) :
    List FieldLayout → (old : List (String × Value)) → List (String × Value)
  | ⟨name, layout, _⟩ :: rest, (_, old) :: more =>
    let v := match supplied.lookup name with
      | some v => overlay layout v old
      | none => old
    (name, v) :: overlayFields supplied rest more
  | _, old => old

end

/-- The value with the part at the end of some steps changed. -/
def update (change : Value → Value) : Layout → List UInt64 → Value → Value
  | _, [], v => change v
  | record r, step :: rest, .record fields =>
    match r.fields[step.toNat]? with
    | none => .record fields
    | some f => .record (fields.modify step.toNat fun (n, v) => (n, update change f.layout rest v))
  | array a, step :: rest, .array items =>
    .array ((a.lengthen (step.toNat + 1) items).modify step.toNat (update change a.element rest))
  | _, _, v => v

theorem zero_record (r : RecordLayout) :
    (record r).zero = .record ((r.fields.map (·.name)).zip (r.fields.map (·.layout.zero))) := by
  obtain ⟨name, fields, size, hasChain⟩ := r
  simp only [zero, Value.record.injEq]
  induction fields with
  | nil => rfl
  | cons field rest ih =>
    obtain ⟨name, layout, start⟩ := field
    rw [zeroFields, ih]
    rfl

theorem zero_array (a : ArrayLayout) :
    (array a).zero = .array (List.replicate a.capacity a.element.zero) := by
  obtain ⟨element, capacity, extent, size, capacity_pos⟩ := a
  rw [zero]

theorem overlay_array (a : ArrayLayout) (supplied old : List Value) :
    (array a).overlay (.array supplied) (.array old) =
      .array (overlayItems a.element.overlay supplied (a.lengthen supplied.length old)) := by
  obtain ⟨element, capacity, extent, size, capacity_pos⟩ := a
  rw [overlay]

/-- Values of some types with the supplied ones written over the first of them. -/
def overlayRow : List Layout → (supplied old : List Value) → List Value
  | l :: row, v :: supplied, w :: old => l.overlay v w :: overlayRow row supplied old
  | _, _, old => old

/-- A record whose fields are all supplied. -/
theorem overlay_record {r : RecordLayout} {supplied : List (String × Value)} {vs old : List Value}
    (hv : r.fields.map (fun f => supplied.lookup f.name) = vs.map some)
    (hlen : old.length = r.fields.length) :
    (record r).overlay (.record supplied) (.record ((r.fields.map (·.name)).zip old)) =
      .record ((r.fields.map (·.name)).zip (overlayRow (r.fields.map (·.layout)) vs old)) := by
  obtain ⟨name, fields, size, hasChain⟩ := r
  simp only [overlay, Value.record.injEq] at *
  induction fields generalizing vs old with
  | nil => simp [overlayFields]
  | cons field rest ih =>
    obtain ⟨name, layout, start⟩ := field
    obtain _ | ⟨v, vs⟩ := vs
    · cases hv
    obtain _ | ⟨w, old⟩ := old
    · cases hlen
    simp only [List.map_cons, List.cons.injEq] at hv
    simp only [List.map_cons, List.zip_cons_cons, overlayFields, hv.1, overlayRow,
      ih hv.2 (Nat.succ.inj hlen)]

/-- Slots of one type. -/
theorem overlayRow_replicate {l : Layout} {n : Nat} {supplied old : List Value}
    (hle : supplied.length ≤ n) (hlen : old.length = n) :
    overlayRow (List.replicate n l) supplied old = overlayItems l.overlay supplied old := by
  induction n generalizing supplied old with
  | zero =>
    obtain rfl := List.eq_nil_of_length_eq_zero (Nat.le_zero.mp hle)
    rfl
  | succ n ih =>
    obtain _ | ⟨v, supplied⟩ := supplied
    · rfl
    obtain _ | ⟨w, old⟩ := old
    · cases hlen
    rw [List.replicate_succ, overlayRow, ih (Nat.le_of_succ_le_succ hle) (Nat.succ.inj hlen)]
    rfl

end Layout

/-! ## Lengthening -/

namespace ArrayLayout

variable {a : ArrayLayout}

theorem blocksFor_mul_lt (a : ArrayLayout) (n : Nat) : a.blocksFor n * a.capacity < n + a.capacity := by
  have := a.capacity_pos
  have := Nat.div_mul_le_self (n + a.capacity - 1) a.capacity
  unfold blocksFor
  omega

/-- The blocks do hold the elements. -/
theorem le_blocksFor_mul (a : ArrayLayout) (n : Nat) : n ≤ a.blocksFor n * a.capacity := by
  have hpos := a.capacity_pos
  have := Nat.div_add_mod (n + a.capacity - 1) a.capacity
  have := Nat.mod_lt (n + a.capacity - 1) hpos
  have : a.capacity * ((n + a.capacity - 1) / a.capacity) = a.blocksFor n * a.capacity :=
    Nat.mul_comm ..
  omega

theorem blocksFor_add_capacity (a : ArrayLayout) (n : Nat) :
    a.blocksFor (n + a.capacity) = a.blocksFor n + 1 := by
  have hpos := a.capacity_pos
  have : n + a.capacity + a.capacity - 1 = n + a.capacity - 1 + a.capacity := by omega
  rw [blocksFor, this, Nat.add_div_right _ hpos]
  rfl

theorem lengthen_of_fixed (h : a.extent = .fixed) (n : Nat) (items : List Value) :
    a.lengthen n items = items := by
  simp [lengthen, h]

/-- Whole blocks that hold `n` elements are long enough. -/
theorem lengthen_of_le {n blocks : Nat} {items : List Value}
    (hlen : items.length = blocks * a.capacity) (h : n ≤ items.length) :
    a.lengthen n items = items := by
  cases hext : a.extent with
  | fixed => exact lengthen_of_fixed hext n items
  | chained =>
    have hlt := a.blocksFor_mul_lt n
    have : a.blocksFor n < blocks + 1 := by
      refine Nat.lt_of_mul_lt_mul_right (a := a.capacity) ?_
      rw [Nat.add_mul, Nat.one_mul]
      omega
    have : a.blocksFor n * a.capacity ≤ items.length := hlen ▸ Nat.mul_le_mul_right _ (by omega)
    simp [lengthen, hext, Nat.sub_eq_zero_of_le this]

/-- Past the first block, the rest of the array is made longer. -/
theorem lengthen_append {n : Nat} {first rest : List Value} (hext : a.extent = .chained)
    (hfirst : first.length = a.capacity) :
    a.lengthen (n + a.capacity) (first ++ rest) = first ++ a.lengthen n rest := by
  have hcount : (a.blocksFor n + 1) * a.capacity - (a.capacity + rest.length) =
      a.blocksFor n * a.capacity - rest.length := by
    rw [Nat.add_mul, Nat.one_mul]
    omega
  simp only [lengthen, hext, List.append_assoc, List.length_append, hfirst, blocksFor_add_capacity,
    hcount]

/-- An array without blocks gets at least one. -/
theorem lengthen_nil {n : Nat} (hext : a.extent = .chained) (hn : 0 < n) :
    a.lengthen n [] = a.lengthen n (List.replicate a.capacity a.element.zero) := by
  have hle := a.le_blocksFor_mul n
  have hblocks : 1 ≤ a.blocksFor n := by
    refine Nat.pos_of_ne_zero fun h => ?_
    rw [h] at hle
    omega
  have : a.capacity ≤ a.blocksFor n * a.capacity := Nat.le_mul_of_pos_left _ hblocks
  simp only [lengthen, hext, List.nil_append, List.length_nil, List.length_replicate, Nat.sub_zero,
    List.replicate_append_replicate, Nat.add_sub_cancel' this]

end ArrayLayout

/-! ## Overlays of items -/

section

variable {change : Value → Value → Value}

theorem overlayItems_nil (old : List Value) : overlayItems change [] old = old := rfl

/-- What is supplied for the first items leaves the others alone. -/
theorem overlayItems_append_of_le {supplied first rest : List Value}
    (h : supplied.length ≤ first.length) :
    overlayItems change supplied (first ++ rest) = overlayItems change supplied first ++ rest := by
  simp only [overlayItems, List.append_assoc]
  rw [List.drop_append_of_le_length h]
  congr 1
  induction supplied generalizing first with
  | nil => rfl
  | cons v supplied ih =>
    obtain _ | ⟨w, first⟩ := first
    · simp at h
    · simp [ih (by simpa using h)]

/-- Items are written over block by block. -/
theorem overlayItems_append {supplied more first rest : List Value}
    (h : supplied.length = first.length) :
    overlayItems change (supplied ++ more) (first ++ rest) =
      overlayItems change supplied first ++ overlayItems change more rest := by
  simp [overlayItems, List.zipWith_append h, h, List.drop_append, List.drop_eq_nil_of_le]

end

end RecordFile
