import RecordFile.Proofs.Image

/-!
# Types without chained arrays

A flat type has no chained array in it, so a place of such a type is all there is: it reaches no
other block, and its value depends on its own bytes only (`Layout.Flat.value_congr`).

A value that is written to a place of a flat type supplies some of its scalars
(`Layout.Supplies`), and `Stamped` is a file in which just these have been written. What lies there
then is the canonical form of the supplied value, written onto the old one
(`Layout.Flat.value_of_stamped`).
-/

namespace RecordFile

/-! ## Flat types -/

/-- The type is well formed, and no chained array occurs in it. -/
def Layout.Flat (l : Layout) : Prop :=
  l.Every (·.WellFormed) fun a => a.WellFormed ∧ a.extent = .fixed

theorem Layout.WellFormed.flat {l : Layout} (hw : l.WellFormed) (h : l.hasChain = false) :
    l.Flat := by
  induction hw with
  | scalar kind => exact .scalar kind
  | @record r own _ ih =>
    have hfields : r.hasChain = false := h
    rw [own.hasChain_eq, List.any_eq_false] at hfields
    exact .record own fun f hf => ih f hf (Bool.eq_false_iff.mpr (hfields f hf))
  | @array a own _ ih =>
    obtain ⟨element, capacity, extent, size, capacity_pos⟩ := a
    cases extent with
    | fixed => exact .array ⟨own, rfl⟩ (ih h)
    | chained => cases h

/-! ## Values written onto values -/

namespace Value

mutual

/-- The value `v` written onto another one of the same type: fields by position, elements as far as
`v` has them. -/
def onto : (v old : Value) → Value
  | record fields, record old => record (ontoFields fields old)
  | array items, array old => array (ontoItems items old)
  | v, _ => v

def ontoFields : (fields old : List (String × Value)) → List (String × Value)
  | (name, v) :: fields, (_, w) :: old => (name, onto v w) :: ontoFields fields old
  | _, old => old

def ontoItems : (items old : List Value) → List Value
  | v :: items, w :: old => onto v w :: ontoItems items old
  | _, old => old

end

theorem ontoItems_nil (old : List Value) : ontoItems [] old = old := by
  cases old <;> simp [ontoItems]

theorem onto_array (items old : List Value) :
    (array items).onto (array old) = array (ontoItems items old) := by
  rw [onto]

/-- A record written onto another one with the same names. -/
theorem onto_record {names : List String} {values old : List Value}
    (h : values.length = names.length) (h' : old.length = names.length) :
    (record (names.zip values)).onto (record (names.zip old)) =
      record (names.zip (ontoItems values old)) := by
  rw [onto]
  congr 1
  induction names generalizing values old with
  | nil => simp [ontoFields]
  | cons name names ih =>
    obtain _ | ⟨v, values⟩ := values
    · cases h
    obtain _ | ⟨w, old⟩ := old
    · cases h'
    rw [List.zip_cons_cons, List.zip_cons_cons, ontoFields, ontoItems, List.zip_cons_cons,
      ih (Nat.succ.inj h) (Nat.succ.inj h')]

end Value

theorem Scalar.onto_ofDigits (kind : Scalar) (n : Nat) (old : Value) :
    (kind.ofDigits n).onto old = kind.ofDigits n := by
  cases kind <;> simp [ofDigits, isSigned, Value.onto]

namespace Layout

mutual

/-- The value as it reads back: fields in the order of declaration, each scalar as its encoding is
decoded. -/
def canonical : Layout → Value → Value
  | scalar kind, v =>
    match kind.encode v >>= kind.decode with
    | .ok w => w
    | .error _ => v
  | record ⟨_, fields, _, _⟩, .record supplied => .record (canonicalFields supplied fields)
  | array ⟨element, _, _, _, _⟩, .array items => .array (items.map (canonical element))
  | _, v => v

def canonicalFields (supplied : List (String × Value)) : List FieldLayout → List (String × Value)
  | [] => []
  | ⟨name, layout, _⟩ :: rest =>
    match supplied.lookup name with
    | some v => (name, canonical layout v) :: canonicalFields supplied rest
    | none => canonicalFields supplied rest

end

theorem canonical_scalar {kind : Scalar} {v : Value} {bytes : ByteArray}
    (h : kind.encode v = .ok bytes) :
    (scalar kind).canonical v = kind.ofDigits (littleEndianValue bytes) := by
  rw [canonical, h]
  simp only [bind, Except.bind, Scalar.decode_of_size (Scalar.size_of_encode h)]

theorem canonical_record {r : RecordLayout} {supplied : List (String × Value)} {vs : List Value}
    (hvs : r.fields.map (fun f => supplied.lookup f.name) = vs.map some) :
    (record r).canonical (.record supplied) =
      .record ((r.fields.map (·.name)).zip (List.zipWith canonical (r.fields.map (·.layout)) vs)) := by
  obtain ⟨name, fields, size, hasChain⟩ := r
  simp only [canonical, Value.record.injEq]
  dsimp only at hvs
  induction fields generalizing vs with
  | nil => rfl
  | cons field rest ih =>
    obtain ⟨name, layout, start⟩ := field
    obtain _ | ⟨v, vs⟩ := vs
    · cases hvs
    simp only [List.map_cons, List.cons.injEq] at hvs
    simp only [List.map_cons, canonicalFields, hvs.1, ih hvs.2, List.zipWith_cons_cons,
      List.zip_cons_cons]

theorem canonical_array (a : ArrayLayout) (items : List Value) :
    (array a).canonical (.array items) = .array (items.map a.element.canonical) := by
  obtain ⟨element, capacity, extent, size, capacity_pos⟩ := a
  rw [canonical]

end Layout

/-! ## Supplied scalars -/

/-- A scalar that is written: its kind, its place and the value. -/
structure Leaf where
  kind : Scalar
  offset : Nat
  value : Value

/-- The byte at `x` belongs to the scalar. -/
def Leaf.Covers (leaf : Leaf) (x : Nat) : Prop :=
  leaf.offset ≤ x ∧ x < leaf.offset + leaf.kind.width

/-- The scalars that a value supplies to a place: a field by its name, an element by its position. -/
inductive Layout.Supplies : Layout → (offset : Nat) → Value → Leaf → Prop
  | scalar (kind : Scalar) (offset : Nat) (v : Value) :
    Supplies (.scalar kind) offset v ⟨kind, offset, v⟩
  | field {r : RecordLayout} {offset : Nat} {supplied : List (String × Value)} {f : FieldLayout}
    {v : Value} {leaf : Leaf} (declared : f ∈ r.fields) (found : supplied.lookup f.name = some v)
    (below : Supplies f.layout (offset + f.offset) v leaf) :
    Supplies (.record r) offset (.record supplied) leaf
  | element {a : ArrayLayout} {offset i : Nat} {items : List Value} {v : Value} {leaf : Leaf}
    (found : items[i]? = some v) (below : Supplies a.element (offset + i * a.element.size) v leaf) :
    Supplies (.array a) offset (.array items) leaf

/-- The scalars that values supply to the first places of a row. -/
def RowSupplies (row : List (Layout × Nat)) (vs : List Value) (leaf : Leaf) : Prop :=
  ∃ (i : Nat) (p : Layout × Nat) (v : Value), row[i]? = some p ∧ vs[i]? = some v ∧
    p.1.Supplies p.2 v leaf

section

variable {leaf : Leaf}

theorem not_rowSupplies_nil {row : List (Layout × Nat)} : ¬ RowSupplies row [] leaf := by
  rintro ⟨i, p, v, -, hv, -⟩
  simp at hv

theorem rowSupplies_cons_iff {p : Layout × Nat} {row : List (Layout × Nat)} {v : Value}
    {vs : List Value} : RowSupplies (p :: row) (v :: vs) leaf ↔
      p.1.Supplies p.2 v leaf ∨ RowSupplies row vs leaf := by
  constructor
  · rintro ⟨i, q, w, hq, hw, hleaf⟩
    obtain _ | i := i
    · obtain rfl := Option.some.inj hq
      obtain rfl := Option.some.inj hw
      exact .inl hleaf
    · exact .inr ⟨i, q, w, hq, hw, hleaf⟩
  · rintro (hleaf | ⟨i, q, w, hq, hw, hleaf⟩)
    · exact ⟨0, p, v, rfl, rfl, hleaf⟩
    · exact ⟨i + 1, q, w, hq, hw, hleaf⟩

namespace Layout

theorem supplies_scalar_iff {kind : Scalar} {offset : Nat} {v : Value} :
    (scalar kind).Supplies offset v leaf ↔ leaf = ⟨kind, offset, v⟩ :=
  ⟨fun h => by cases h; rfl, fun h => h ▸ .scalar kind offset v⟩

theorem supplies_record_iff {r : RecordLayout} {offset : Nat} {supplied : List (String × Value)}
    {vs : List Value} (hvs : r.fields.map (fun f => supplied.lookup f.name) = vs.map some) :
    (record r).Supplies offset (.record supplied) leaf ↔ RowSupplies (r.places offset) vs leaf := by
  have hat (i : Nat) : (r.fields[i]?).map (fun f => supplied.lookup f.name) = (vs[i]?).map some := by
    rw [← List.getElem?_map, hvs, List.getElem?_map]
  constructor
  · rintro (_ | ⟨declared, found, hbelow⟩)
    rename_i f v
    obtain ⟨i, hi⟩ := List.mem_iff_getElem?.mp declared
    have hv : vs[i]? = some v := by simpa [hi, found, eq_comm] using hat i
    exact ⟨i, (f.layout, offset + f.offset), v, by simp [RecordLayout.places, hi], hv, hbelow⟩
  · rintro ⟨i, p, v, hp, hv, hbelow⟩
    rw [RecordLayout.places, List.getElem?_map, Option.map_eq_some_iff] at hp
    obtain ⟨f, hi, rfl⟩ := hp
    have found : supplied.lookup f.name = some v := by simpa [hi, hv] using hat i
    exact .field (List.mem_of_getElem? hi) found hbelow

theorem supplies_array_iff {a : ArrayLayout} {block : Nat} {items : List Value}
    (hlen : items.length ≤ a.capacity) :
    (array a).Supplies block (.array items) leaf ↔ RowSupplies (a.places block) items leaf := by
  constructor
  · rintro (_ | _ | ⟨found, hbelow⟩)
    rename_i i v
    have hi : i < a.capacity := Nat.lt_of_lt_of_le (List.getElem?_eq_some_iff.mp found).1 hlen
    exact ⟨i, (a.element, block + i * a.element.size), v, by simp [ArrayLayout.places, hi], found,
      hbelow⟩
  · rintro ⟨i, p, v, hp, hv, hbelow⟩
    rw [ArrayLayout.places, List.getElem?_map, Option.map_eq_some_iff] at hp
    obtain ⟨j, hj, rfl⟩ := hp
    obtain ⟨-, rfl⟩ : _ ∧ i = j := by simpa [List.getElem?_range'] using List.getElem?_eq_some_iff.mp hj
    exact .element hv hbelow

end Layout

/-! ## Where supplied scalars lie -/

/-- The scalars that an accepted value supplies lie inside the place. -/
def Layout.SuppliesInside (l : Layout) : Prop :=
  ∀ (offset : Nat) (v : Value) (image : Image) (leaf : Leaf), l.image v = .ok image →
    l.Supplies offset v leaf → offset ≤ leaf.offset ∧ leaf.offset + leaf.kind.width ≤ offset + l.size

theorem RowSupplies.inside {row : List (Layout × Nat)} {start stop : Nat}
    (hrow : RowPacked start row stop) (hin : ∀ p ∈ row, p.1.SuppliesInside) {vs : List Value}
    {parts : List Image} (himages : RowImages (row.map (·.1)) vs parts)
    (h : RowSupplies row vs leaf) :
    start ≤ leaf.offset ∧ leaf.offset + leaf.kind.width ≤ stop := by
  induction row generalizing start vs parts with
  | nil =>
    obtain ⟨_, _, _, hp, -⟩ := h
    cases hp
  | cons p row ih =>
    obtain ⟨rfl, hrow⟩ := hrow
    rw [List.map_cons] at himages
    cases himages with
    | nil => exact absurd h (not_rowSupplies_nil)
    | cons hv himages =>
      obtain ⟨hin₁, hin⟩ := List.forall_mem_cons.mp hin
      have hstop := hrow.le
      rcases rowSupplies_cons_iff.mp h with h | h
      · have := hin₁ p.2 _ _ leaf hv h
        omega
      · have := ih hrow hin himages h
        omega

theorem Layout.Flat.suppliesInside {l : Layout} (h : l.Flat) : l.SuppliesInside := by
  induction h with
  | scalar kind =>
    intro offset v image leaf _ hleaf
    obtain rfl := supplies_scalar_iff.mp hleaf
    exact ⟨Nat.le_refl _, Nat.le_refl _⟩
  | @record r own _ ih =>
    intro offset v image leaf himage hleaf
    obtain ⟨supplied, vs, parts, rfl, hvs, himages, -⟩ := image_record_ok himage
    exact RowSupplies.inside (own.places_packed offset) (r.forall_places ih offset)
      (r.layouts_places offset ▸ himages) ((supplies_record_iff hvs).mp hleaf)
  | @array a own _ ih =>
    intro offset v image leaf himage hleaf
    obtain ⟨items, parts, rfl, hlen, himages, -⟩ := image_array_ok himage
    obtain ⟨hstart, hstop⟩ := RowSupplies.inside (a.places_packed offset) (a.forall_places ih offset)
      (a.layouts_places offset ▸ himages.slice (hlen own.2))
      ((supplies_array_iff (hlen own.2)).mp hleaf)
    have hsize : (array a).size = a.slotsSize := own.1.size_of_fixed own.2
    rw [hsize]
    exact ⟨hstart, hstop⟩

end

/-! ## Written scalars -/

/-- Between `start` and `stop`, the bytes of the given scalars are in `g` their encodings, and all
other bytes are what they are in `f`. -/
structure Stamped (start stop : Nat) (leaves : Leaf → Prop) (f g : File) : Prop where
  written : ∀ leaf, leaves leaf → ∃ bytes, leaf.kind.encode leaf.value = .ok bytes ∧
    g.bytes.extract leaf.offset (leaf.offset + leaf.kind.width) = bytes
  others : ∀ x, start ≤ x → x < stop → (∀ leaf, leaves leaf → ¬ leaf.Covers x) →
    g.byte? x = f.byte? x

namespace Stamped

variable {start stop start' stop' : Nat} {leaves leaves' : Leaf → Prop} {f g h : File}

/-- Where no scalars are, nothing is written. -/
theorem refl (h : ∀ leaf, ¬ leaves leaf) : Stamped start stop leaves f f where
  written leaf hleaf := absurd hleaf (h leaf)
  others _ _ _ _ := rfl

/-- A smaller range with the scalars that lie in it. -/
theorem narrow (hs : Stamped start stop leaves f g) (hstart : start ≤ start') (hstop : stop' ≤ stop)
    (hsub : ∀ leaf, leaves' leaf → leaves leaf)
    (hin : ∀ leaf x, leaves leaf → leaf.Covers x → start' ≤ x → x < stop' → leaves' leaf) :
    Stamped start' stop' leaves' f g where
  written leaf hleaf := hs.written leaf (hsub leaf hleaf)
  others x hx hx' hout := hs.others x (Nat.le_trans hstart hx) (Nat.lt_of_lt_of_le hx' hstop)
    fun leaf hleaf hcov => hout leaf (hin leaf x hleaf hcov hx hx') hcov

theorem congr (hs : Stamped start stop leaves f g) (h : ∀ leaf, leaves leaf ↔ leaves' leaf) :
    Stamped start stop leaves' f g where
  written leaf hleaf := hs.written leaf ((h leaf).mpr hleaf)
  others x hx hx' hout := hs.others x hx hx' fun leaf hleaf => hout leaf ((h leaf).mp hleaf)

/-- Scalars written before others that lie apart from them. -/
theorem trans (hs : Stamped start stop leaves f g) (hs' : Stamped start stop leaves' g h)
    (hin : ∀ leaf, leaves leaf → start ≤ leaf.offset ∧ leaf.offset + leaf.kind.width ≤ stop)
    (hapart : ∀ leaf leaf', leaves leaf → leaves' leaf' → ∀ x, leaf.Covers x → ¬ leaf'.Covers x) :
    Stamped start stop (fun leaf => leaves leaf ∨ leaves' leaf) f h where
  written leaf hleaf := by
    rcases hleaf with hleaf | hleaf
    · obtain ⟨bytes, hbytes, hextract⟩ := hs.written leaf hleaf
      obtain ⟨hstart, hstop⟩ := hin leaf hleaf
      refine ⟨bytes, hbytes, Eq.trans (File.extract_congr fun x hx hx' => ?_) hextract⟩
      exact hs'.others x (by omega) (by omega) fun leaf' hleaf' =>
        hapart leaf leaf' hleaf hleaf' x ⟨hx, hx'⟩
    · exact hs'.written leaf hleaf
  others x hx hx' hout :=
    (hs'.others x hx hx' fun leaf hleaf => hout leaf (.inr hleaf)).trans
      (hs.others x hx hx' fun leaf hleaf => hout leaf (.inl hleaf))

end Stamped

section

variable {rootSize : Nat} {f g : File}

/-- The value of a place of a flat type depends on its own bytes only. -/
theorem Layout.Flat.value_congr {l : Layout} (h : l.Flat) {offset : Nat}
    (hbytes : ∀ x, offset ≤ x → x < offset + l.size → g.byte? x = f.byte? x) :
    l.value rootSize g offset = l.value rootSize f offset := by
  have hrow {row : List (Layout × Nat)} {start stop : Nat} (hpacked : RowPacked start row stop)
      (hbytes : ∀ x, start ≤ x → x < stop → g.byte? x = f.byte? x)
      (hp : ∀ p ∈ row, (∀ x, p.2 ≤ x → x < p.2 + p.1.size → g.byte? x = f.byte? x) →
        p.1.value rootSize g p.2 = p.1.value rootSize f p.2) :
      rowValues rootSize g row = rowValues rootSize f row :=
    List.map_congr_left fun p hmem => hp p hmem fun x hx hx' => by
      have := hpacked.le_of_mem hmem
      exact hbytes x (by omega) (by omega)
  induction h generalizing offset with
  | scalar kind =>
    rw [value_scalar, value_scalar]
    exact congrArg kind.ofDigits (File.number_congr hbytes)
  | @record r own _ ih =>
    rw [value_record, value_record, hrow (own.places_packed offset) hbytes fun p hp => by
      obtain ⟨field, hfield, rfl⟩ := List.mem_map.mp hp
      exact ih field hfield]
  | @array a own _ ih =>
    have hsize : (array a).size = a.slotsSize := own.1.size_of_fixed own.2
    rw [hsize] at hbytes
    rw [value_array, value_array, ArrayLayout.values_of_none (File.next?_of_fixed own.2),
      ArrayLayout.values_of_none (File.next?_of_fixed own.2),
      hrow (a.places_packed offset) hbytes fun p hp => by
        obtain ⟨i, -, rfl⟩ := List.mem_map.mp hp
        exact ih]

/-- What a place holds when the scalars have been written that a value supplies to it. -/
def Layout.Stamps (rootSize : Nat) (l : Layout) : Prop :=
  ∀ (f g : File) (offset : Nat) (v : Value) (image : Image), l.image v = .ok image →
    Stamped offset (offset + l.size) (l.Supplies offset v) f g →
    l.value rootSize g offset = (l.canonical v).onto (l.value rootSize f offset)

theorem rowValues_of_stamped {row : List (Layout × Nat)} {start stop : Nat}
    (hrow : RowPacked start row stop) (hflat : ∀ p ∈ row, p.1.Flat)
    (hstamps : ∀ p ∈ row, p.1.Stamps rootSize) {vs : List Value} {parts : List Image}
    (himages : RowImages (row.map (·.1)) vs parts)
    (hs : Stamped start stop (RowSupplies row vs) f g) :
    rowValues rootSize g row =
      Value.ontoItems (List.zipWith Layout.canonical (row.map (·.1)) vs) (rowValues rootSize f row) := by
  induction row generalizing start vs parts with
  | nil => simp [Value.ontoItems_nil]
  | cons p row ih =>
    have hpacked := hrow
    have hall := hflat
    obtain ⟨rfl, hrow⟩ := hrow
    obtain ⟨hflat₁, hflat⟩ := List.forall_mem_cons.mp hflat
    obtain ⟨hstamp, hstamps⟩ := List.forall_mem_cons.mp hstamps
    have hstop := hrow.le
    rw [List.map_cons] at himages
    cases himages with
    | nil =>
      -- nothing is supplied, so nothing is written
      rw [List.zipWith_nil_right, Value.ontoItems_nil]
      refine List.map_congr_left fun q hq => ?_
      have hq' := hpacked.le_of_mem hq
      refine (hall q hq).value_congr fun x hx hx' => ?_
      exact hs.others x (by omega) (by omega) fun leaf hleaf => absurd hleaf (not_rowSupplies_nil)
    | @cons _ _ v vs part parts hv himages =>
      have hin := hflat₁.suppliesInside p.2 v part
      have hin' (leaf : Leaf) (h : RowSupplies row vs leaf) :=
        h.inside hrow (fun q hq => (hflat q hq).suppliesInside) himages
      have hhead : Stamped p.2 (p.2 + p.1.size) (p.1.Supplies p.2 v) f g := by
        refine hs.narrow (Nat.le_refl _) hstop
          (fun leaf hleaf => rowSupplies_cons_iff.mpr (.inl hleaf)) fun leaf x hleaf hcov _ hx => ?_
        refine (rowSupplies_cons_iff.mp hleaf).resolve_right fun h => ?_
        have := hin' leaf h
        unfold Leaf.Covers at hcov
        omega
      have htail : Stamped (p.2 + p.1.size) stop (RowSupplies row vs) f g := by
        refine hs.narrow (Nat.le_add_right ..) (Nat.le_refl _)
          (fun leaf hleaf => rowSupplies_cons_iff.mpr (.inr hleaf)) fun leaf x hleaf hcov hx _ => ?_
        refine (rowSupplies_cons_iff.mp hleaf).resolve_left fun h => ?_
        have := hin leaf hv h
        unfold Leaf.Covers at hcov
        omega
      rw [rowValues_cons, rowValues_cons, List.map_cons, List.zipWith_cons_cons, Value.ontoItems,
        hstamp f g p.2 v part hv hhead, ih hrow hflat hstamps himages htail]

theorem zipWith_replicate {α β γ : Type} {n : Nat} {x : α} {items : List β} {f : α → β → γ}
    (h : items.length ≤ n) : List.zipWith f (List.replicate n x) items = items.map (f x) := by
  rw [← List.map_uncurry_zip_eq_zipWith, replicate_zip h]
  simp

theorem Layout.Flat.value_of_stamped {l : Layout} (h : l.Flat) : l.Stamps rootSize := by
  induction h with
  | scalar kind =>
    intro f g offset v image himage hs
    obtain ⟨bytes, hencode, rfl⟩ := image_scalar_eq_ok_iff.mp himage
    obtain ⟨bytes', hencode', hextract⟩ := hs.written _ (.scalar kind offset v)
    obtain rfl : bytes = bytes' := Except.ok.inj (hencode.symm.trans hencode')
    rw [canonical_scalar hencode, value_scalar, File.number, hextract, kind.onto_ofDigits]
  | @record r own fields ih =>
    intro f g offset v image himage hs
    obtain ⟨supplied, vs, parts, rfl, hvs, himages, -⟩ := image_record_ok himage
    have hlen : vs.length = r.fields.length := by simpa using (congrArg List.length hvs).symm
    have hvalues := rowValues_of_stamped (own.places_packed offset) (r.forall_places fields offset)
      (r.forall_places ih offset) (r.layouts_places offset ▸ himages)
      (hs.congr fun _ => supplies_record_iff hvs)
    rw [value_record, value_record, canonical_record hvs, hvalues, r.layouts_places,
      Value.onto_record (by simp [hlen]) (by simp)]
  | @array a own element ih =>
    intro f g offset v image himage hs
    obtain ⟨items, parts, rfl, hlen, himages, -⟩ := image_array_ok himage
    have hsize : (array a).size = a.slotsSize := own.1.size_of_fixed own.2
    rw [hsize] at hs
    have hvalues := rowValues_of_stamped (a.places_packed offset) (a.forall_places element offset)
      (a.forall_places ih offset) (a.layouts_places offset ▸ himages.slice (hlen own.2))
      (hs.congr fun _ => supplies_array_iff (hlen own.2))
    have hnone (f : File) : f.next? rootSize a offset = none := File.next?_of_fixed own.2
    rw [value_array, value_array, ArrayLayout.values_of_none (hnone g),
      ArrayLayout.values_of_none (hnone f), canonical_array, Value.onto_array, hvalues,
      a.layouts_places, zipWith_replicate (hlen own.2)]

end

/-! ## Values that fill their place -/

/-- The value supplies every slot of every fixed array in the type. -/
inductive Layout.Fills : Layout → Value → Prop
  | scalar (kind : Scalar) (v : Value) : Fills (.scalar kind) v
  | record {r : RecordLayout} {supplied : List (String × Value)}
    (fields : ∀ f ∈ r.fields, ∀ v, supplied.lookup f.name = some v → Fills f.layout v) :
    Fills (.record r) (.record supplied)
  | array {a : ArrayLayout} {items : List Value}
    (length_eq : a.extent = .fixed → items.length = a.capacity)
    (elements : ∀ v ∈ items, Fills a.element v) : Fills (.array a) (.array items)

namespace Layout

/-- The values of the fields of a filling record fill the fields. -/
theorem forall₂_fills_record {r : RecordLayout} {supplied : List (String × Value)} {vs : List Value}
    (h : (record r).Fills (.record supplied))
    (hvs : r.fields.map (fun f => supplied.lookup f.name) = vs.map some) (offset : Nat) :
    List.Forall₂ (fun p v => p.1.Fills v) (r.places offset) vs := by
  obtain - | ⟨hfields⟩ := h
  unfold RecordLayout.places
  generalize r.fields = fields at *
  induction fields generalizing vs with
  | nil =>
    obtain rfl := List.map_eq_nil_iff.mp hvs.symm
    exact .nil
  | cons f fields ih =>
    obtain _ | ⟨v, vs⟩ := vs
    · cases hvs
    obtain ⟨hf, hvs⟩ := List.cons.inj hvs
    obtain ⟨hfirst, hfields⟩ := List.forall_mem_cons.mp hfields
    exact .cons (hfirst v hf) (ih hvs hfields)

/-- The items of a filling array fill the slots. -/
theorem forall₂_fills_array {a : ArrayLayout} {items : List Value}
    (h : (array a).Fills (.array items)) (hext : a.extent = .fixed) (offset : Nat) :
    List.Forall₂ (fun p v => p.1.Fills v) (a.places offset) items := by
  obtain - | - | ⟨hlen, helements⟩ := h
  refine List.forall₂_iff_get.mpr ⟨by simp [hlen hext], fun i hi hi' => ?_⟩
  rw [a.forall_places (P := (· = a.element)) rfl offset _ (List.get_mem ..)]
  exact helements _ (List.get_mem ..)

end Layout

/-- An image of a value that fills the place is a run that takes up the whole of it. -/
def Layout.FillsRun (l : Layout) : Prop :=
  ∀ (v : Value) (image : Image), l.image v = .ok image → l.Fills v →
    ∃ bytes, image = .run bytes ∧ bytes.size = l.size

/-- Runs that take up whole places are merged to one that takes up the row. -/
theorem exists_merge?_of_fills {row : List (Layout × Nat)} {start stop : Nat}
    (hrow : RowPacked start row stop) (hruns : ∀ p ∈ row, p.1.FillsRun) {vs : List Value}
    {parts : List Image} (himages : RowImages (row.map (·.1)) vs parts)
    (hfills : List.Forall₂ (fun p v => p.1.Fills v) row vs) :
    ∃ bytes, Image.merge? ((row.map (·.1.size)).zip parts) = some bytes ∧
      start + bytes.size = stop := by
  induction hfills generalizing start parts with
  | nil =>
    obtain rfl : start = stop := hrow
    exact ⟨ByteArray.empty, rfl, rfl⟩
  | @cons p v row vs hfill _ ih =>
    obtain ⟨rfl, hrow⟩ := hrow
    obtain ⟨hrun, hruns⟩ := List.forall_mem_cons.mp hruns
    rw [List.map_cons] at himages
    obtain - | ⟨hv, himages⟩ := himages
    obtain ⟨first, rfl, hfirst⟩ := hrun v _ hv hfill
    obtain ⟨more, hmore, hstop⟩ := ih hrow hruns himages
    refine ⟨first ++ more, ?_, ?_⟩
    · rw [List.map_cons, List.zip_cons_cons, ← hfirst]
      exact Image.merge?_cons_run hmore
    · rw [ByteArray.size_append, hfirst]
      omega

theorem Layout.Flat.fillsRun {l : Layout} (h : l.Flat) : l.FillsRun := by
  induction h with
  | scalar kind =>
    intro v image himage _
    obtain ⟨bytes, hencode, rfl⟩ := image_scalar_eq_ok_iff.mp himage
    exact ⟨bytes, rfl, Scalar.size_of_encode hencode⟩
  | @record r own _ ih =>
    intro v image himage hfills
    obtain ⟨supplied, vs, parts, rfl, hvs, himages, rfl⟩ := image_record_ok himage
    obtain ⟨bytes, hmerge, hsize⟩ := exists_merge?_of_fills (own.places_packed 0)
      (r.forall_places ih 0) (r.layouts_places 0 ▸ himages) (forall₂_fills_record hfills hvs 0)
    rw [r.map_places 0 Layout.size] at hmerge
    refine ⟨bytes, by rw [hmerge], ?_⟩
    show bytes.size = r.size
    omega
  | @array a own _ ih =>
    intro v image himage hfills
    obtain ⟨items, parts, rfl, hlen, himages, rfl⟩ := image_array_ok himage
    have hsize : (array a).size = a.slotsSize := own.1.size_of_fixed own.2
    have himages := himages.slice (hlen own.2)
    have hparts : parts.length ≤ a.capacity := himages.length_eq ▸ hlen own.2
    obtain ⟨bytes, hmerge, hbytes⟩ := exists_merge?_of_fills (a.places_packed 0)
      (a.forall_places ih 0) (a.layouts_places 0 ▸ himages) (forall₂_fills_array hfills own.2 0)
    rw [Image.merge?_slots_eq 0 hparts] at hmerge
    refine ⟨bytes, ?_, by omega⟩
    simp only [own.2, Image.ofSlots, hmerge]

section

variable {rootSize : Nat} {f : File}

/-- A value that fills the place leaves nothing of the value that was there. -/
def Layout.FillsValue (rootSize : Nat) (f : File) (l : Layout) : Prop :=
  ∀ (v : Value) (image : Image), l.image v = .ok image → l.Fills v → ∀ offset,
    (l.canonical v).onto (l.value rootSize f offset) = l.canonical v

theorem ontoItems_of_fills {row : List (Layout × Nat)} (h : ∀ p ∈ row, p.1.FillsValue rootSize f)
    {vs : List Value} {parts : List Image} (himages : RowImages (row.map (·.1)) vs parts)
    (hfills : List.Forall₂ (fun p v => p.1.Fills v) row vs) :
    Value.ontoItems (List.zipWith Layout.canonical (row.map (·.1)) vs) (rowValues rootSize f row) =
      List.zipWith Layout.canonical (row.map (·.1)) vs := by
  induction hfills generalizing parts with
  | nil => rfl
  | @cons p v row vs hfill _ ih =>
    obtain ⟨hfirst, h⟩ := List.forall_mem_cons.mp h
    rw [List.map_cons] at himages ⊢
    obtain - | ⟨hv, himages⟩ := himages
    rw [List.zipWith_cons_cons, rowValues_cons, Value.ontoItems, hfirst v _ hv hfill, ih h himages]

theorem Layout.Flat.fillsValue {l : Layout} (h : l.Flat) : l.FillsValue rootSize f := by
  induction h with
  | scalar kind =>
    intro v image himage _ offset
    obtain ⟨bytes, hencode, rfl⟩ := image_scalar_eq_ok_iff.mp himage
    rw [canonical_scalar hencode, kind.onto_ofDigits]
  | @record r own _ ih =>
    intro v image himage hfills offset
    obtain ⟨supplied, vs, parts, rfl, hvs, himages, -⟩ := image_record_ok himage
    have hlen : vs.length = r.fields.length := by simpa using (congrArg List.length hvs).symm
    have honto := ontoItems_of_fills (f := f) (r.forall_places ih offset)
      (r.layouts_places offset ▸ himages) (forall₂_fills_record hfills hvs offset)
    rw [r.layouts_places] at honto
    rw [canonical_record hvs, value_record, Value.onto_record (by simp [hlen])
      (by simp), honto]
  | @array a own _ ih =>
    intro v image himage hfills offset
    obtain ⟨items, parts, rfl, hlen, himages, -⟩ := image_array_ok himage
    have honto := ontoItems_of_fills (f := f) (a.forall_places ih offset)
      (a.layouts_places offset ▸ himages.slice (hlen own.2)) (forall₂_fills_array hfills own.2 offset)
    rw [a.layouts_places, zipWith_replicate (hlen own.2)] at honto
    have hnone : f.next? rootSize a offset = none := File.next?_of_fixed own.2
    rw [canonical_array, value_array, ArrayLayout.values_of_none hnone, Value.onto_array, honto]

end

end RecordFile
