import RecordFile.Proofs.Walk.Merging

/-!
# Writing back what is there

The value of a place can be written back, and that changes nothing (`Layout.WellFormed.writesBack`), if
each of its scalars comes out as it was when it is decoded and encoded again (`Cell.Exact`).

The value of a chained array has the elements of all blocks of its chain. So the image of a chain is
one image for each block, and going on past a block finds the next one wherever there is more to be
written (`ArrayLayout.writesBack_blocks`).
-/

namespace RecordFile

open Session

/-- The scalar in the cell, decoded and encoded again, comes out as it was. -/
def Cell.Exact (f : File) : Cell → Prop
  | scalar kind offset => kind.encode (kind.ofDigits (f.number offset kind.width)) =
      .ok (littleEndian kind.width (f.number offset kind.width))
  | link _ _ _ => True

/-- A file in which bytes are replaced by themselves. -/
theorem File.overwritten_self {f : File} {offset length : Nat} (h : offset + length ≤ f.size) :
    f.overwritten offset (littleEndian length (f.number offset length)) = f := by
  have hin : offset + length ≤ f.bytes.size := h
  have hsize : (f.bytes.extract offset (offset + length)).size = length := by
    rw [ByteArray.size_extract]
    omega
  have hdata := littleEndian_littleEndianValue (f.bytes.extract offset (offset + length))
  rw [hsize] at hdata
  obtain ⟨bytes⟩ := f
  refine congrArg File.mk ?_
  rw [File.number, hdata, overwrite_eq, hsize, ByteArray.extract_append_extract, Nat.zero_min,
    Nat.max_eq_right (Nat.le_add_right ..), ByteArray.extract_append_extract, Nat.zero_min,
    Nat.max_eq_right hin, ByteArray.extract_zero_size]

section

variable {δ : Type} [Device δ] [LawfulDevice δ] {rootSize : Nat} {f : File}

/-- The value of a place has an image, and writing it back changes nothing. -/
def Layout.WritesBack (δ : Type) [Device δ] [LawfulDevice δ] (rootSize : Nat) (f : File)
    (l : Layout) : Prop :=
  ∀ offset, offset + l.size ≤ f.size → (∀ c ∈ l.cells rootSize f offset, c.Exact f) →
    ∃ image, l.image (l.value rootSize f offset) = .ok image ∧
      ∀ s : Session δ, s.file = f → WP (writeImage rootSize l offset image) s
        (fun _ s' => Alike s s') fun _ _ => False

/-! ## Rows -/

/-- The values of a row are written back one by one. -/
theorem writesBack_row {row : List (Layout × Nat)} {start stop : Nat}
    (hrow : RowPacked start row stop) (h : ∀ p ∈ row, p.1.WritesBack δ rootSize f)
    (hexact : ∀ c ∈ rowCells rootSize f row, c.Exact f) (hle : stop ≤ f.size) :
    ∃ parts, RowImages (row.map (·.1)) (rowValues rootSize f row) parts ∧
      ∀ s : Session δ, s.file = f → WP (writeRow rootSize row parts) s
        (fun _ s' => Alike s s') fun _ _ => False := by
  induction row generalizing start with
  | nil => exact ⟨[], .nil _, fun s _ => ⟨rfl, rfl⟩⟩
  | cons p row ih =>
    obtain ⟨rfl, hrow⟩ := hrow
    obtain ⟨hback, h⟩ := List.forall_mem_cons.mp h
    rw [rowCells_cons] at hexact
    obtain ⟨hexact₁, hexact⟩ := List.forall_mem_append.mp hexact
    obtain ⟨part, himage, hwrite⟩ := hback p.2 (Nat.le_trans hrow.le hle) hexact₁
    obtain ⟨parts, himages, hwrites⟩ := ih hrow h hexact
    refine ⟨part :: parts, .cons himage himages, fun s hs => ?_⟩
    rw [writeRow, WP.bind_iff]
    refine (hwrite s hs).mono (fun _ s₁ h₁ => ?_) fun _ _ h => h
    exact (hwrites s₁ (h₁.file_eq.trans hs)).mono (fun _ _ h => h₁.trans h) fun _ _ h => h

/-- What leaves the file alone when it is written part by part does so as an image. -/
theorem EndsAs.alike {m n : Action (Session δ) Unit} {s : Session δ} (h : EndsAs m n s)
    (hm : WP m s (fun _ s' => Alike s s') fun _ _ => False) :
    WP n s (fun _ s' => Alike s s') fun _ _ => False :=
  h.wp hm fun _ _ halike h => h.trans halike

/-- Values of the fields of a record, under their names. -/
theorem RowImages.named {fields : List FieldLayout} {vs : List Value} {parts : List Image}
    {supplied : List (String × Value)} (h : RowImages (fields.map (·.layout)) vs parts)
    (hlen : vs.length = fields.length) (hsub : (fields.map (·.name)).zip vs ⊆ supplied) :
    List.Forall₂ (fun field part => ∃ w, (field.name, w) ∈ supplied ∧
      field.layout.image w = .ok part) fields parts := by
  induction fields generalizing vs parts with
  | nil =>
    obtain ⟨-⟩ := h
    exact .nil
  | cons field fields ih =>
    rw [List.map_cons] at h
    cases h with
    | nil => cases hlen
    | @cons _ _ v vs _ _ hv h =>
      rw [List.map_cons, List.zip_cons_cons, List.cons_subset] at hsub
      exact .cons ⟨v, hsub.1, hv⟩ (ih h (Nat.succ.inj hlen) hsub.2)

/-- Images of a row of elements. -/
theorem RowImages.items {l : Layout} {n : Nat} {vs : List Value} {parts : List Image}
    (h : RowImages (List.replicate n l) vs parts) :
    List.Forall₂ (fun v part => l.image v = .ok part) vs parts := by
  generalize hrow : List.replicate n l = row at h
  induction h generalizing n with
  | nil => exact .nil
  | cons head _ ih =>
    obtain _ | n := n
    · cases hrow
    obtain ⟨rfl, htail⟩ := List.cons.inj hrow
    exact .cons head (ih htail)

namespace ArrayLayout

variable {a : ArrayLayout} {block : Nat}

/-- The elements of a block are written back. -/
theorem writesBack_block (hinf : LawfulDevice.infallible δ) (hlt : f.size < wordLimit)
    (own : a.WellFormed) (helement : a.element.WritesBack δ rootSize f)
    (hexact : ∀ c ∈ rowCells rootSize f (a.places block), c.Exact f)
    (hle : block + a.size ≤ f.size) :
    ∃ parts, parts.length = a.capacity ∧
      List.Forall₂ (fun v part => a.element.image v = .ok part) (rowValues rootSize f (a.places block))
        parts ∧
      ∀ s : Session δ, s.file = f →
        WP (writeImage rootSize (.array a) block (.ofSlots a.element.size parts)) s
          (fun _ s' => Alike s s') fun _ _ => False := by
  have hslots := own.slotsSize_le
  obtain ⟨parts, himages, hwrites⟩ := writesBack_row (a.places_packed block)
    (a.forall_places helement block) hexact (by omega)
  have hlen : parts.length = a.capacity := by simpa using himages.length_eq
  rw [a.layouts_places] at himages
  refine ⟨parts, hlen, himages.items, fun s hs => ?_⟩
  subst hs
  exact (endsAs_block hinf own hlt hle (Nat.le_of_eq hlen)).alike (hwrites s rfl)

/-- The elements of a chain are written back, block by block. -/
theorem writesBack_blocks (hinf : LawfulDevice.infallible δ) (hlt : f.size < wordLimit)
    (own : a.WellFormed) (helement : a.element.WritesBack δ rootSize f)
    (hexact : ∀ c ∈ (a.part rootSize block).cells f, c.Exact f) (hle : block + a.size ≤ f.size) :
    ∃ parts, List.Forall₂ (fun v part => a.element.image v = .ok part) (a.values rootSize f block)
        parts ∧
      ∀ s : Session δ, s.file = f →
        WP (writeBlocks rootSize a block true (a.blockImages parts)) s
          (fun _ s' => Alike s s') fun _ _ => False := by
  have hcap := a.capacity_pos
  induction block using File.chain_induct f rootSize a with
  | stop block hnext =>
    replace hexact : ∀ c ∈ (Layout.array a).cells rootSize f block, c.Exact f := hexact
    rw [Layout.cells_array_of_none hnext] at hexact
    obtain ⟨parts, hlen, himages, hwrite⟩ := writesBack_block hinf hlt own helement
      (List.forall_mem_append.mp hexact).1 hle
    refine ⟨parts, values_of_none hnext ▸ himages, fun s hs => ?_⟩
    have hne : parts ≠ [] := List.length_pos_iff.mp (hlen ▸ hcap)
    rw [blockImages_of_ne_nil hne, List.take_of_length_le (Nat.le_of_eq hlen),
      List.drop_eq_nil_of_le (Nat.le_of_eq hlen), blockImages_nil, writeBlocks_true, WP.bind_iff]
    refine (hwrite s hs).mono (fun _ s₁ h₁ => ?_) fun _ _ h => h
    rw [writeBlocks]
    exact h₁
  | step block next hnext ih =>
    replace hexact : ∀ c ∈ (Layout.array a).cells rootSize f block, c.Exact f := hexact
    rw [Layout.cells_array_of_some hnext] at hexact
    obtain ⟨hexact₁, hexact⟩ := List.forall_mem_append.mp hexact
    have hleads := (File.next?_eq_some_iff.mp hnext).2.2
    obtain ⟨first, hlen, himages, hwrite⟩ := writesBack_block hinf hlt own helement hexact₁ hle
    obtain ⟨more, himages', hwrites⟩ := ih (List.forall_mem_cons.mp hexact).2 hleads.2.2
    have hmore : more ≠ [] := by
      have hlength := himages'.length_eq
      rw [values_eq, List.length_append, length_rowValues, length_places] at hlength
      exact List.length_pos_iff.mp (by omega)
    refine ⟨first ++ more, values_of_some hnext ▸ List.rel_append himages himages', fun s hs => ?_⟩
    have hne : first ++ more ≠ [] := List.append_ne_nil_of_right_ne_nil _ hmore
    rw [blockImages_of_ne_nil hne, List.take_left' hlen, List.drop_left' hlen, writeBlocks_true,
      WP.bind_iff]
    refine (hwrite s hs).mono (fun _ s₁ h₁ => ?_) fun _ _ h => h
    have hs₁ := h₁.file_eq.trans hs
    rw [blockImages_of_ne_nil hmore, writeBlocks_false, ← blockImages_of_ne_nil hmore, WP.bind_iff]
    rw [← hs₁] at hnext hle hlt
    refine (Chain.wp_followOrExtend_of_some hinf own hlt hle hnext).mono (fun _ s₂ h₂ => ?_)
      fun _ _ h => h
    obtain ⟨hsame, rfl⟩ := h₂
    have halike := h₁.trans hsame.alike
    exact (hwrites s₂ (halike.file_eq.trans hs)).mono (fun _ _ h => halike.trans h) fun _ _ h => h

end ArrayLayout

/-! ## Values -/

/-- What lies at a place can be written back, and that changes nothing. -/
theorem Layout.WellFormed.writesBack (hinf : LawfulDevice.infallible δ) (hlt : f.size < wordLimit)
    {l : Layout} (hw : l.WellFormed) : l.WritesBack δ rootSize f := by
  induction hw with
  | scalar kind =>
    intro offset hle hexact
    have hencode : kind.encode (kind.ofDigits (f.number offset kind.width)) = _ :=
      hexact (.scalar kind offset) (List.mem_singleton_self _)
    refine ⟨_, image_scalar_eq_ok_iff.mpr ⟨_, hencode, rfl⟩, fun s hs => ?_⟩
    rw [writeImage]
    refine (wp_write s offset _).mono (fun _ s' h => ?_) fun _ s' h => ?_
    · refine ⟨h.1.trans ?_, h.2.1⟩
      rw [hs]
      exact File.overwritten_self hle
    · have := h.2.2.2 hinf
      rw [hs, size_littleEndian] at this
      exact absurd this (Nat.not_lt_of_le hle)
  | @record r own _ ih =>
    intro offset hle hexact
    rw [cells_record] at hexact
    have hpacked := own.places_packed offset
    obtain ⟨parts, himages, hwrites⟩ := writesBack_row hpacked (r.forall_places ih offset) hexact hle
    have hlen : (rowValues rootSize f (r.places offset)).length = r.fields.length := by simp
    rw [r.layouts_places] at himages
    have hadmits : r.Admits
        ((r.fields.map (·.name)).zip (rowValues rootSize f (r.places offset))) := by
      refine ⟨?_, fun p hp => List.mem_map.mp (List.of_mem_zip hp).1⟩
      rw [List.map_fst_zip (by simp)]
      exact own.nodup
    rw [value_record]
    refine ⟨_, image_record_eq_ok_iff.mpr ⟨_, parts, rfl, hadmits,
      himages.named hlen (List.Subset.refl _), rfl⟩, fun s hs => ?_⟩
    subst hs
    exact (endsAs_record hinf own hlt hle parts).alike (hwrites s rfl)
  | @array a own _ ih =>
    intro offset hle hexact
    rw [value_array]
    cases hext : a.extent with
    | fixed =>
      have hnext : f.next? rootSize a offset = none := File.next?_of_fixed hext
      rw [cells_array_of_none hnext] at hexact
      obtain ⟨parts, -, himages, hwrite⟩ := ArrayLayout.writesBack_block hinf hlt own ih
        (List.forall_mem_append.mp hexact).1 hle
      rw [← ArrayLayout.values_of_none hnext] at himages
      refine ⟨_, image_array_eq_ok_iff.mpr ⟨_, parts, rfl, fun _ => ?_, himages, rfl⟩, fun s hs => ?_⟩
      · rw [ArrayLayout.values_of_none hnext]
        simp
      · simp only [hext]
        exact hwrite s hs
    | chained =>
      obtain ⟨parts, himages, hwrites⟩ := ArrayLayout.writesBack_blocks hinf hlt own ih hexact hle
      refine ⟨_, image_array_eq_ok_iff.mpr ⟨_, parts, rfl, fun h => ?_, himages, rfl⟩, fun s hs => ?_⟩
      · rw [hext] at h
        cases h
      · simp only [hext, writeImage]
        exact hwrites s hs

end

end RecordFile
