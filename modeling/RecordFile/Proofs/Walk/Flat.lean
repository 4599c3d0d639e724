import RecordFile.Proofs.Catalog.Expressions
import RecordFile.Proofs.File.Flat
import RecordFile.Proofs.Walk.Decoding
import RecordFile.Proofs.Walk.Merging

/-!
# Encoding and decoding flat types

A place of a flat type is decoded from its bytes alone, without a call to the device
(`Layout.Flat.decode_eq`). Writing an image to it writes the scalars that are supplied and nothing
else (`Layout.Flat.wp_writeImage`), whether the image is one run or comes in parts: a merged run is
what its parts are when they are written one by one.

So decoding undoes encoding (`Catalog.decode_image`): the image of a value that fills every array is
a run that decodes to the canonical form of the value, and any image, written to a place, puts that
form onto the value there.
-/

namespace RecordFile

open Session

/-! ## Decoding -/

section

variable {δ : Type} [Device δ] {rootSize : Nat} {f : File}

/-- Bytes of the type, wherever they come from, decode to the value that they are in their file. -/
def Layout.DecodesAlone (δ : Type) [Device δ] (rootSize : Nat) (l : Layout) : Prop :=
  ∀ (f : File) (start base : Nat) (bytes : ByteArray), slice? f.bytes start l.size = some bytes →
    base + l.size < wordLimit →
    decode (δ := δ) rootSize l base bytes = pure (l.value rootSize f start)

theorem decodeFields_eq {fields : List FieldLayout} {start base length : Nat} {bytes : ByteArray}
    (hbytes : slice? f.bytes start length = some bytes) (hlt : base + length < wordLimit)
    (hle : ∀ field ∈ fields, field.offset + field.layout.size ≤ length)
    (hdecodes : ∀ field ∈ fields, field.layout.DecodesAlone δ rootSize) :
    decodeFields (δ := δ) rootSize fields base bytes = pure ((fields.map (·.name)).zip
      (rowValues rootSize f (fields.map fun field => (field.layout, start + field.offset)))) := by
  induction fields with
  | nil => rw [decodeFields, List.map_nil, List.zip_nil_left]
  | cons field rest ih =>
    obtain ⟨name, layout, offset⟩ := field
    obtain ⟨hle₁, hle⟩ := List.forall_mem_cons.mp hle
    obtain ⟨hdecode, hdecodes⟩ := List.forall_mem_cons.mp hdecodes
    replace hle₁ : offset + layout.size ≤ length := hle₁
    have hin := (slice?_eq_some_iff.mp hbytes).1
    obtain ⟨slice, hslice⟩ := exists_slice? f (start + offset) layout.size
      (by show _ ≤ f.bytes.size; omega)
    have hhead := hdecode f (start + offset) (base + offset) slice hslice
      (by show base + offset + layout.size < _; omega)
    rw [decodeFields, slice?_slice? hbytes hle₁, hslice,
      checkedAdd_eq_some_iff.mpr ⟨rfl, (by omega : base + offset < wordLimit)⟩, orAbort_some_bind,
      orAbort_some_bind, hhead, pure_bind, ih hle hdecodes, pure_bind]
    rfl

theorem readSlots_eq {a : ArrayLayout} (own : a.WellFormed) {start base : Nat} {bytes : ByteArray}
    (hbytes : slice? f.bytes start a.size = some bytes) (hlt : base + a.size < wordLimit)
    (hdecodes : a.element.DecodesAlone δ rootSize) {left index : Nat}
    (hcount : index + left = a.capacity) (items : Array Value) :
    readSlots (δ := δ) a (decode rootSize a.element) base bytes left index items =
      pure (items ++ (rowValues rootSize f ((a.places start).drop index)).toArray) := by
  induction left generalizing index items with
  | zero =>
    rw [readSlots, List.drop_eq_nil_of_le (by simp; omega), rowValues_nil]
    simp
  | succ left ih =>
    have hindex : index < a.capacity := by omega
    have hplace := a.drop_places hindex start
    have hle : index * a.element.size + a.element.size ≤ a.size :=
      Nat.le_trans (a.slot_le hindex) own.slotsSize_le
    have hin := (slice?_eq_some_iff.mp hbytes).1
    obtain ⟨slot, hslot⟩ := exists_slice? f (start + index * a.element.size) a.element.size
      (by show _ ≤ f.bytes.size; omega)
    have hitem := hdecodes f _ (base + index * a.element.size) slot hslot (by omega)
    rw [readSlots, slice?_slice? hbytes hle, hslot, a.slotOffset?_eq own hindex hlt,
      orAbort_some_bind, orAbort_some_bind, hitem, pure_bind, ih (by omega), hplace, rowValues_cons]
    simp

/-- A place of a flat type is decoded from its bytes alone. -/
theorem Layout.Flat.decode_eq {l : Layout} (h : l.Flat) : l.DecodesAlone δ rootSize := by
  induction h with
  | scalar kind =>
    intro f start base bytes hbytes _
    rw [decode, Scalar.decode_of_size (size_of_slice? hbytes), number_of_slice? hbytes]
    rfl
  | @record r own _ ih =>
    intro f start base bytes hbytes hlt
    have hfields := decodeFields_eq hbytes hlt (fun field hf => (own.packed.le_of_mem hf).2) ih
    rw [value_record]
    obtain ⟨name, fields, size, hasChain⟩ := r
    rw [decode, hfields]
    rfl
  | @array a own _ ih =>
    intro f start base bytes hbytes hlt
    have hnone : f.next? rootSize a start = none := File.next?_of_fixed own.2
    have hslots := readSlots_eq own.1 hbytes hlt ih (Nat.zero_add _) #[]
    rw [List.drop_zero] at hslots
    have hext := own.2
    rw [value_array, ArrayLayout.values_of_none hnone]
    obtain ⟨element, capacity, extent, size, capacity_pos⟩ := a
    obtain rfl : extent = .fixed := hext
    rw [decode, readBlocks, hslots]
    simp

end

/-! ## Writing -/

section

variable {δ : Type} [Device δ] [LawfulDevice δ] {rootSize : Nat} {s : Session δ}

/-- Writing an image writes the scalars that its value supplies, and the device does not fail. -/
def Layout.WritesLeaves (δ : Type) [Device δ] [LawfulDevice δ] (rootSize : Nat) (l : Layout) : Prop :=
  ∀ (s : Session δ) (offset : Nat) (v : Value) (image : Image), l.image v = .ok image → s.Fits →
    offset + l.size ≤ s.file.size → WP (writeImage rootSize l offset image) s
      (fun _ s' => s'.file.size = s.file.size ∧
        Stamped 0 s.file.size (l.Supplies offset v) s.file s'.file) fun _ _ => False

/-- Parts are written to the first places of a row one by one. -/
theorem wp_writeRow {row : List (Layout × Nat)} {start stop : Nat} (hrow : RowPacked start row stop)
    (hflat : ∀ p ∈ row, p.1.Flat) (hwrites : ∀ p ∈ row, p.1.WritesLeaves δ rootSize)
    {vs : List Value} {parts : List Image} (himages : RowImages (row.map (·.1)) vs parts)
    (hfit : s.Fits) (hle : stop ≤ s.file.size) : WP (writeRow rootSize row parts) s
      (fun _ s' => s'.file.size = s.file.size ∧
        Stamped 0 s.file.size (RowSupplies row vs) s.file s'.file) fun _ _ => False := by
  induction row generalizing s start vs parts with
  | nil =>
    obtain ⟨-⟩ := himages
    exact ⟨rfl, .refl fun _ => not_rowSupplies_nil⟩
  | cons p row ih =>
    obtain ⟨rfl, hrow⟩ := hrow
    obtain ⟨hflat₁, hflat⟩ := List.forall_mem_cons.mp hflat
    obtain ⟨hwrite, hwrites⟩ := List.forall_mem_cons.mp hwrites
    have hstop := hrow.le
    rw [List.map_cons] at himages
    cases himages with
    | nil => exact ⟨rfl, .refl fun _ => not_rowSupplies_nil⟩
    | @cons _ _ v vs part parts hv himages =>
      rw [writeRow, WP.bind_iff]
      refine (hwrite s p.2 v part hv hfit (by omega)).mono (fun _ s₁ h => ?_) fun _ _ h => h
      obtain ⟨hsize, hhead⟩ := h
      have hfit₁ : s₁.Fits := Nat.lt_of_le_of_lt (Nat.le_of_eq hsize) hfit
      refine (ih hrow hflat hwrites himages hfit₁ (hsize ▸ hle)).mono (fun _ s' h => ?_)
        fun _ _ h => h
      obtain ⟨hsize', htail⟩ := h
      have hin := fun leaf => hflat₁.suppliesInside p.2 v part leaf hv
      have hin' (leaf : Leaf) (h : RowSupplies row vs leaf) :=
        h.inside hrow (fun q hq => (hflat q hq).suppliesInside) himages
      rw [hsize] at htail
      refine ⟨hsize'.trans hsize, (hhead.trans htail (fun leaf hleaf => ?_) ?_).congr fun leaf =>
        rowSupplies_cons_iff.symm⟩
      · have := hin leaf hleaf
        omega
      · intro leaf leaf' hleaf hleaf' x hx hx'
        have := hin leaf hleaf
        have := hin' leaf' hleaf'
        unfold Leaf.Covers at hx hx'
        omega

/-- An image that is written as its parts are writes the scalars that they supply. -/
theorem EndsAs.stamped {m n : Action (Session δ) Unit} (h : EndsAs m n s)
    {leaves leaves' : Leaf → Prop}
    (hm : WP m s (fun _ s' => s'.file.size = s.file.size ∧
      Stamped 0 s.file.size leaves s.file s'.file) fun _ _ => False)
    (hiff : ∀ leaf, leaves leaf ↔ leaves' leaf) :
    WP n s (fun _ s' => s'.file.size = s.file.size ∧
      Stamped 0 s.file.size leaves' s.file s'.file) fun _ _ => False := by
  refine h.wp (hm.mono (fun _ s' h => ⟨h.1, h.2.congr hiff⟩) fun _ _ h => h) fun t u halike h => ?_
  rw [halike.file_eq]
  exact h

theorem Layout.Flat.wp_writeImage (hinf : LawfulDevice.infallible δ) {l : Layout} (h : l.Flat) :
    l.WritesLeaves δ rootSize := by
  induction h with
  | scalar kind =>
    intro s offset v image himage hfit hle
    obtain ⟨bytes, hencode, rfl⟩ := image_scalar_eq_ok_iff.mp himage
    have hwidth := Scalar.size_of_encode hencode
    replace hle : offset + bytes.size ≤ s.file.size := hwidth ▸ hle
    rw [writeImage]
    refine (wp_write s offset bytes).mono (fun _ s' h => ?_) fun _ s' h => ?_
    · obtain ⟨hfile, -⟩ := h
      replace hfile : s'.file = s.file.overwritten offset bytes := hfile
      rw [hfile]
      refine ⟨size_overwrite hle, fun leaf hleaf => ?_, fun x _ _ hout => ?_⟩
      · obtain rfl := supplies_scalar_iff.mp hleaf
        exact ⟨bytes, hencode, hwidth ▸ File.extract_overwrite hle⟩
      · refine File.byte?_overwrite_of_outside hle ?_
        have := hout _ (.scalar kind offset v)
        simp only [Leaf.Covers] at this
        omega
    · have := h.2.2.2 hinf
      omega
  | @record r own fields ih =>
    intro s offset v image himage hfit hle
    obtain ⟨supplied, vs, parts, rfl, hvs, himages, rfl⟩ := image_record_ok himage
    rw [← r.layouts_places offset] at himages
    exact (endsAs_record hinf own hfit hle parts).stamped
      (wp_writeRow (own.places_packed offset) (r.forall_places fields offset)
        (r.forall_places ih offset) himages hfit hle) fun _ => (supplies_record_iff hvs).symm
  | @array a own element ih =>
    intro s offset v image himage hfit hle
    obtain ⟨items, parts, rfl, hlen, himages, rfl⟩ := image_array_ok himage
    have hext := own.2
    have hsize : (array a).size = a.slotsSize := own.1.size_of_fixed own.2
    replace himages := himages.slice (hlen hext)
    have hparts : parts.length ≤ a.capacity := himages.length_eq ▸ hlen hext
    rw [← a.layouts_places offset] at himages
    simp only [hext]
    exact (endsAs_block hinf own.1 hfit hle hparts).stamped
      (wp_writeRow (a.places_packed offset) (a.forall_places element offset)
        (a.forall_places ih offset) himages hfit (hsize ▸ hle)) fun _ => (supplies_array_iff (hlen hext)).symm

end

/-! ## Decoding undoes encoding -/

namespace Layout

/-- The run of a value that fills its place decodes to the canonical form of the value. -/
theorem Flat.decode_run {δ : Type} [Device δ] {rootSize base : Nat} {l : Layout} (h : l.Flat)
    {v : Value} {bytes : ByteArray} (himage : l.image v = .ok (.run bytes))
    (hsize : bytes.size = l.size) (hfills : l.Fills v) (hlt : base + l.size < wordLimit) :
    decode (δ := δ) rootSize l base bytes = pure (l.canonical v) := by
  -- The bytes are what a file of their size holds after the run has been written to it.
  obtain ⟨s, hs⟩ : ∃ s : Session File, s.file.size = l.size :=
    ⟨⟨.zeroed l.size, {}⟩, File.size_zeroed _⟩
  have hin : 0 + l.size ≤ s.file.size := by omega
  have hfit : s.Fits := Nat.lt_of_le_of_lt (Nat.le_trans (Nat.le_of_eq hs) (Nat.le_add_left ..)) hlt
  have hwrites : l.WritesLeaves File rootSize := h.wp_writeImage trivial
  obtain ⟨_, s', -, ⟨hfile, -⟩, hsize', hstamped⟩ := ((Session.wp_write s 0 bytes).and
    (hwrites s 0 v _ himage hfit hin)).exists_ok fun _ _ _ h => h.2
  have hslice : slice? s'.file.bytes 0 l.size = some bytes := by
    refine slice?_eq_some_iff.mpr ⟨Nat.le_trans hin (Nat.le_of_eq hsize'.symm), ?_⟩
    rw [hfile, ← hsize]
    exact File.extract_overwrite (hsize ▸ hin)
  have hplace := hstamped.narrow (Nat.le_refl 0) hin (fun _ h => h) fun _ _ h _ _ _ => h
  rw [h.decode_eq s'.file 0 base bytes hslice hlt,
    h.value_of_stamped s.file s'.file 0 v _ himage hplace, h.fillsValue v _ himage hfills]

end Layout

namespace Catalog

/-- Decoding undoes encoding, for types without chained arrays. The image of a value that fills every
array is a run of the size of the type, and decodes to the canonical form of the value. Writing an
image over any value changes the bytes of the scalars that are supplied, to their encodings, and no
others; what the place then holds is the old value with the canonical form written onto it. -/
theorem decode_image {δ : Type} [Device δ] [LawfulDevice δ] {c : Catalog} (h : c.Built)
    {text : String} {l : Layout} (hl : c.resolve text = .ok l) (hchain : l.hasChain = false)
    {v : Value} {image : Image} (himage : l.image v = .ok image) :
    (l.Fills v → ∃ bytes, image = .run bytes ∧ bytes.size = l.size ∧
      ∀ (rootSize base : Nat) (s : Session δ), base + l.size < wordLimit →
        decode rootSize l base bytes s = .ok (l.canonical v) s) ∧
    (LawfulDevice.infallible δ → ∀ (rootSize offset : Nat) (s : Session δ) (old : ByteArray)
      (w : Value), s.Fits → slice? s.file.bytes offset l.size = some old →
        decode rootSize l offset old s = .ok w s →
          ∃ s', writeImage rootSize l offset image s = .ok () s' ∧ s'.file.size = s.file.size ∧
            Stamped 0 s.file.size (l.Supplies offset v) s.file s'.file ∧
            ∃ new, slice? s'.file.bytes offset l.size = some new ∧
              decode rootSize l offset new s' = .ok ((l.canonical v).onto w) s') := by
  have hflat := (h.wellFormed.resolve hl).flat hchain
  refine ⟨fun hfills => ?_, fun hinf rootSize offset s old w hfit hold hw => ?_⟩
  · obtain ⟨bytes, rfl, hsize⟩ := hflat.fillsRun v image himage hfills
    refine ⟨bytes, rfl, hsize, fun rootSize base s hlt => ?_⟩
    rw [hflat.decode_run himage hsize hfills hlt]
    rfl
  · have hin : offset + l.size ≤ s.file.size := (slice?_eq_some_iff.mp hold).1
    have hlt : offset + l.size < wordLimit := Nat.lt_of_le_of_lt hin hfit
    rw [hflat.decode_eq s.file offset offset old hold hlt] at hw
    obtain rfl : l.value rootSize s.file offset = w := (EStateM.Result.ok.inj hw).1
    obtain ⟨_, s', hwrite, hsize, hstamped⟩ :=
      (hflat.wp_writeImage hinf s offset v image himage hfit hin).exists_ok fun _ _ _ h => h
    obtain ⟨new, hnew⟩ := exists_slice? s'.file offset l.size (hsize ▸ hin)
    refine ⟨s', hwrite, hsize, hstamped, new, hnew, ?_⟩
    have hplace := hstamped.narrow (Nat.zero_le offset) hin (fun _ h => h) fun _ _ h _ _ _ => h
    rw [hflat.decode_eq s'.file offset offset new hnew hlt,
      hflat.value_of_stamped s.file s'.file offset v image himage hplace]
    rfl

theorem decode_image_uint8 :
    let l : Layout := .array ⟨.scalar .uint8, 3, .fixed, 3, by decide⟩
    (new {}).resolve "uint8[3]" = .ok l ∧
      l.image (.array [.uint 5, .uint 6]) = .ok (.run ⟨#[5, 6]⟩) ∧
      ∃ s' new, writeImage 3 l 0 (.run ⟨#[5, 6]⟩) ⟨(⟨⟨#[1, 2, 3]⟩⟩ : File), {}⟩ = .ok () s' ∧
        slice? s'.file.bytes 0 3 = some new ∧
        decode 3 l 0 new s' = .ok (.array [.uint 5, .uint 6, .uint 3]) s' := by
  intro l
  have hspells : TypeExpression.Spells 128 "uint8" [⟨3, .fixed⟩] "uint8[3]" :=
    .suffix .name (@ArraySuffix.Spells.fixed 128 "3" (by decide) (by decide) (by decide))
  have hl : (new {}).resolve "uint8[3]" = .ok l :=
    (Built.new {}).regular.resolve_of_spells hspells (lookup_uint8 _)
  have himage : l.image (.array [.uint 5, .uint 6]) = .ok (.run ⟨#[5, 6]⟩) := rfl
  have hold : decode 3 l 0 ⟨#[1, 2, 3]⟩ (⟨⟨⟨#[1, 2, 3]⟩⟩, {}⟩ : Session File) =
      .ok (.array [.uint 1, .uint 2, .uint 3]) ⟨⟨⟨#[1, 2, 3]⟩⟩, {}⟩ := by
    rw [decode, readBlocks]
    rfl
  obtain ⟨-, hover⟩ := decode_image (δ := File) (.new {}) hl rfl himage
  obtain ⟨s', hwrite, -, -, new, hnew, hdecode⟩ := hover trivial 3 0 _ _ _ (by decide) rfl hold
  exact ⟨hl, himage, s', new, hwrite, hnew, hdecode⟩

end Catalog

end RecordFile
