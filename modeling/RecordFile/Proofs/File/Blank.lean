import RecordFile.Proofs.File.Holes

/-!
# Blank places and new blocks

Zero bytes are in order for every type: all links are zero, and the value is the type's zero
(`Layout.WellFormed.fresh`). That is how a file begins, and what a block is when it is appended.

`ArrayLayout.evolves_linked` is how a chain grows: once a blank block at the end of the file is
linked from the last block, the chain has it as its last block.
-/

namespace RecordFile

/-- Cells of blank bytes between `start` and `stop`. -/
structure Fresh (rootSize : Nat) (f : File) (start stop : Nat) (cells : List Cell) : Prop where
  fits : ∀ c ∈ cells, c.Fits rootSize f
  inside : ∀ c ∈ cells, start ≤ c.offset ∧ c.offset + c.width ≤ stop
  unlinked : ∀ c ∈ cells, c.target = 0
  apart : cells.Pairwise Cell.Apart
  blank : ∀ c ∈ cells, f.Blank c.offset c.width

variable {rootSize : Nat} {f g : File}

namespace Fresh

theorem nil {start stop : Nat} : Fresh rootSize f start stop [] := by
  constructor <;> simp

theorem append {start mid stop : Nat} {cells cells' : List Cell}
    (h : Fresh rootSize f start mid cells) (h' : Fresh rootSize f mid stop cells')
    (hle : start ≤ mid) (hle' : mid ≤ stop) : Fresh rootSize f start stop (cells ++ cells') where
  fits c hc := (List.mem_append.mp hc).elim (h.fits c) (h'.fits c)
  inside c hc := by
    rcases List.mem_append.mp hc with hc | hc
    · have := h.inside c hc
      omega
    · have := h'.inside c hc
      omega
  unlinked c hc := (List.mem_append.mp hc).elim (h.unlinked c) (h'.unlinked c)
  apart := by
    refine List.pairwise_append.mpr ⟨h.apart, h'.apart, fun c hc c' hc' => ⟨?_, ?_⟩⟩
    · intro x hx hx'
      have := h.inside c hc
      have := h'.inside c' hc'
      unfold Cell.Covers at hx hx'
      omega
    · exact fun _ => h.unlinked c hc
  blank c hc := (List.mem_append.mp hc).elim (h.blank c) (h'.blank c)

/-- Zeros are encodings of every kind. -/
theorem encoded {start stop : Nat} {cells : List Cell} (h : Fresh rootSize f start stop cells) :
    ∀ c ∈ cells, c.Encoded f := fun c hc => by
  cases c with
  | scalar kind offset =>
    have hzero : f.number offset kind.width = 0 := (h.blank _ hc).number_eq
    show kind.Holds (f.number offset kind.width)
    rw [hzero]
    exact kind.holds_zero
  | link a block next => trivial

/-- A fresh place of a type is in order and holds zeros. -/
theorem row (rootSize : Nat) {row : List (Layout × Nat)} {start stop : Nat}
    (hrow : RowPacked start row stop) (hb : f.Blank start (stop - start)) (hle : stop ≤ f.size)
    (h : ∀ p ∈ row, f.Blank p.2 p.1.size → p.2 + p.1.size ≤ f.size →
      Fresh rootSize f p.2 (p.2 + p.1.size) (p.1.cells rootSize f p.2) ∧
        p.1.value rootSize f p.2 = p.1.zero) :
    Fresh rootSize f start stop (rowCells rootSize f row) ∧
      rowValues rootSize f row = row.map (·.1.zero) := by
  induction row generalizing start with
  | nil => exact ⟨.nil, rfl⟩
  | cons p row ih =>
    obtain ⟨rfl, hrow⟩ := hrow
    have hstop := hrow.le
    obtain ⟨hp, h⟩ := List.forall_mem_cons.mp h
    obtain ⟨hfresh, hzero⟩ := hp (hb.sub (Nat.le_refl _) (by omega)) (by omega)
    obtain ⟨hrest, hzeros⟩ := ih hrow (hb.sub (Nat.le_add_right ..) (by omega)) h
    refine ⟨hfresh.append hrest (Nat.le_add_right ..) hstop, ?_⟩
    rw [rowValues_cons, hzero, hzeros, List.map_cons]

end Fresh

/-- The slots of a blank block. -/
theorem ArrayLayout.fresh_places {a : ArrayLayout} {block : Nat}
    (hb : f.Blank block a.slotsSize) (hle : block + a.slotsSize ≤ f.size)
    (h : ∀ offset, f.Blank offset a.element.size → offset + a.element.size ≤ f.size →
      Fresh rootSize f offset (offset + a.element.size) (a.element.cells rootSize f offset) ∧
        a.element.value rootSize f offset = a.element.zero) :
    Fresh rootSize f block (block + a.slotsSize) (rowCells rootSize f (a.places block)) ∧
      rowValues rootSize f (a.places block) = List.replicate a.capacity a.element.zero := by
  have hfresh := Fresh.row rootSize (a.places_packed block)
    (by rwa [Nat.add_sub_cancel_left]) hle fun p hp => by
      obtain ⟨i, -, rfl⟩ := List.mem_map.mp hp
      exact h _
  refine ⟨hfresh.1, hfresh.2.trans ?_⟩
  simp [ArrayLayout.places, Function.comp_def]

/-- A blank block is the last one of its chain. -/
theorem ArrayLayout.fresh (rootSize : Nat) {a : ArrayLayout} {block : Nat} (own : a.WellFormed)
    (hb : f.Blank block a.size) (hle : block + a.size ≤ f.size)
    (h : ∀ offset, f.Blank offset a.element.size → offset + a.element.size ≤ f.size →
      Fresh rootSize f offset (offset + a.element.size) (a.element.cells rootSize f offset) ∧
        a.element.value rootSize f offset = a.element.zero) :
    f.next? rootSize a block = none ∧
      Fresh rootSize f block (block + a.size) ((a.part rootSize block).cells f) ∧
      a.values rootSize f block = List.replicate a.capacity a.element.zero := by
  have hslots := own.slotsSize_le
  obtain ⟨hfresh, hzeros⟩ := fresh_places (hb.sub (Nat.le_refl _) (by omega)) (by omega) h
  cases hext : a.extent with
  | fixed =>
    have hnext : f.next? rootSize a block = none := File.next?_of_fixed hext
    have hcells : (a.part rootSize block).cells f = rowCells rootSize f (a.places block) := by
      simp [part, Layout.cells_array_of_none hnext, linkCells, hext]
    refine ⟨hnext, ?_, (values_of_none hnext).trans hzeros⟩
    rwa [hcells, own.size_of_fixed hext]
  | chained =>
    have hsize := own.size_of_chained hext
    have hlink : f.link a block = 0 :=
      (hb.sub (Nat.le_add_right ..) (by omega)).number_eq
    have hnext : f.next? rootSize a block = none := File.next?_of_zero hlink
    have hcells : (a.part rootSize block).cells f =
        rowCells rootSize f (a.places block) ++ [.link a block 0] := by
      simp [part, Layout.cells_array_of_none hnext, linkCells, hext, hlink]
    refine ⟨hnext, ?_, (values_of_none hnext).trans hzeros⟩
    rw [hcells, hsize, ← Nat.add_assoc]
    refine hfresh.append ⟨?_, ?_, ?_, ?_, ?_⟩ (Nat.le_add_right ..) (Nat.le_add_right ..)
    · simpa [Cell.Fits] using ⟨hsize, hle, hlink⟩
    · simp [Cell.offset, Cell.width, linkOffset]
    · simp [Cell.target]
    · exact List.pairwise_singleton ..
    · rw [List.forall_mem_singleton]
      exact hb.sub (Nat.le_add_right ..) (a.linkOffset_le own hext (Nat.le_refl _))

/-- Blank bytes are in order for every type and hold its zero. -/
theorem Layout.WellFormed.fresh (rootSize : Nat) {l : Layout} (hw : l.WellFormed) {offset : Nat}
    (hb : f.Blank offset l.size) (hle : offset + l.size ≤ f.size) :
    Fresh rootSize f offset (offset + l.size) (l.cells rootSize f offset) ∧
      l.value rootSize f offset = l.zero := by
  induction hw generalizing offset with
  | scalar kind =>
    refine ⟨⟨?_, ?_, ?_, List.pairwise_singleton .., List.forall_mem_singleton.mpr hb⟩, ?_⟩
    · simp only [cells_scalar, List.forall_mem_singleton]
      exact hle
    · simp [cells_scalar, Cell.offset, Cell.width, size]
    · simp [cells_scalar, Cell.target]
    · exact congrArg kind.ofDigits hb.number_eq
  | @record r own _ ih =>
    have hrow := Fresh.row rootSize (own.places_packed offset)
      (by rwa [Nat.add_sub_cancel_left]) hle fun p hp => by
        obtain ⟨field, hfield, rfl⟩ := List.mem_map.mp hp
        exact fun hb hle => ih field hfield hb hle
    refine ⟨cells_record r offset ▸ hrow.1, ?_⟩
    rw [value_record, zero_record, hrow.2, RecordLayout.places, List.map_map]
    rfl
  | @array a own _ ih =>
    obtain ⟨-, hfresh, hzeros⟩ := ArrayLayout.fresh rootSize own hb hle fun offset => ih
    exact ⟨hfresh, by rw [value_array, zero_array, hzeros]⟩

/-- A file of zeros is in order. -/
theorem Layout.WellFormed.sound_zeroed {l : Layout} (hw : l.WellFormed) :
    Sound l.size (.zeroed l.size) (l.cells l.size (.zeroed l.size) 0) := by
  have hsize := File.size_zeroed l.size
  obtain ⟨hfresh, -⟩ := hw.fresh l.size (File.blank_zeroed l.size)
    (Nat.le_of_eq (by rw [Nat.zero_add, hsize]))
  exact ⟨Nat.le_of_eq hsize.symm, hfresh.fits, hfresh.apart⟩

/-! ## Growth -/

/-- A part that stays the same evolves. -/
theorem Part.Steady.evolves {α : Type} {P : Part α} (hp : P.Steady rootSize)
    (hs : Sound rootSize f (P.cells f)) (hle : f.size ≤ g.size)
    (hu : ∀ x < f.size, g.byte? x = f.byte? x) :
    Evolves rootSize P f g ∧ P.cells g = P.cells f ∧ P.value g = P.value f := by
  have hcells : Untouched f g (P.cells f) := fun c hc x hx => hu x ((hs.fits c hc).lt_size hx)
  obtain ⟨heq, hvalue⟩ := hp f g hs.fits hle hcells
  refine ⟨⟨hle, fun x hx _ => hu x hx, ?_, ?_, ?_, ?_, ?_⟩, heq, hvalue⟩
  · exact fun c hc => .of_mem (heq ▸ hc)
  · exact fun c hc x _ hx => ⟨c, heq ▸ hc, hx⟩
  · exact fun c hc _ _ => ⟨c, heq ▸ hc, rfl⟩
  · rw [heq]
    exact ⟨Nat.le_trans hs.root_le hle,
      fun c hc => (hs.fits c hc).congr hle (hcells c hc), hs.apart⟩
  · exact fun h c hc => (h c (heq ▸ hc)).congr (hcells c (heq ▸ hc))

/-! A file to which zeros are appended, and a word set to where they start. -/

section

variable {offset length : Nat}

theorem File.link_inside (hle : offset + linkSize ≤ f.size) :
    offset + (littleEndian linkSize f.size).size ≤ File.size ⟨f.bytes ++ zeros length⟩ := by
  rw [size_littleEndian, File.size_append]
  omega

theorem File.size_linked (hle : offset + linkSize ≤ f.size) :
    File.size ⟨overwrite (f.bytes ++ zeros length) offset (littleEndian linkSize f.size)⟩ =
      f.size + length :=
  (size_overwrite (File.link_inside hle)).trans
    (File.size_append.trans (congrArg (f.size + ·) (size_zeros length)))

theorem File.blank_linked (hle : offset + linkSize ≤ f.size) :
    File.Blank ⟨overwrite (f.bytes ++ zeros length) offset (littleEndian linkSize f.size)⟩ f.size
      length := by
  refine (File.blank_append_zeros f length).congr fun x hx _ => ?_
  refine File.byte?_overwrite_of_outside (File.link_inside hle) (.inr ?_)
  rw [size_littleEndian]
  omega

theorem File.byte?_linked_of_lt (hle : offset + linkSize ≤ f.size) {x : Nat} (hx : x < f.size)
    (hout : ¬ (offset ≤ x ∧ x < offset + linkSize)) :
    File.byte? ⟨overwrite (f.bytes ++ zeros length) offset (littleEndian linkSize f.size)⟩ x =
      f.byte? x := by
  have hdata : (littleEndian linkSize f.size).size = linkSize := size_littleEndian ..
  refine (File.byte?_overwrite_of_outside (File.link_inside hle) (by omega)).trans ?_
  exact File.byte?_append_of_lt hx

theorem File.linked (hle : offset + linkSize ≤ f.size) (hlt : f.size < wordLimit)
    (hg : g = ⟨overwrite (f.bytes ++ zeros length) offset (littleEndian linkSize f.size)⟩) :
    g.size = f.size + length ∧ g.number offset linkSize = f.size ∧ g.Blank f.size length ∧
      ∀ x < f.size, ¬ (offset ≤ x ∧ x < offset + linkSize) → g.byte? x = f.byte? x := by
  subst hg
  refine ⟨File.size_linked hle, File.number_of_extract hlt ?_, File.blank_linked hle,
    fun x => File.byte?_linked_of_lt hle⟩
  have hinside : offset + (littleEndian linkSize f.size).size ≤
      File.size ⟨f.bytes ++ zeros length⟩ := File.link_inside hle
  have := File.extract_overwrite hinside
  rwa [size_littleEndian] at this

end

/-- Cells stay untouched while only another one that is apart from them is written. -/
theorem Untouched.of_frame {ctx : List Cell} {c : Cell} (hs : Sound rootSize f (ctx ++ [c]))
    (hframe : ∀ x < f.size, ¬ c.Covers x → g.byte? x = f.byte? x) : Untouched f g ctx := by
  obtain ⟨-, -, hapart⟩ := List.pairwise_append.mp hs.apart
  exact fun c' hc' x hx => hframe x ((hs.left.fits c' hc').lt_size hx)
    ((hapart c' hc' c (List.mem_singleton_self _)).1 x hx)

/-- A part evolves when a link of it that was zero is set, and the file ends with the new cells. -/
theorem Evolves.of_linked {α : Type} {P : Part α} {a : ArrayLayout} {block stop : Nat}
    {ctx new : List Cell} (hs : Sound rootSize f (ctx ++ [.link a block 0]))
    (hcells : P.cells f = ctx ++ [.link a block 0])
    (hcells' : P.cells g = ctx ++ .link a block f.size :: new) (hle : f.size ≤ g.size)
    (hlink : (Cell.link a block f.size).Fits rootSize g) (hfresh : Fresh rootSize g f.size stop new)
    (hframe : ∀ x < f.size, ¬ (Cell.link a block 0).Covers x → g.byte? x = f.byte? x) :
    Evolves rootSize P f g := by
  obtain ⟨-, -, hapart⟩ := List.pairwise_append.mp hs.apart
  have hu := Untouched.of_frame hs hframe
  have hin : ∀ x, (Cell.link a block 0).Covers x → x < f.size := fun x hx =>
    (hs.right.fits _ (List.mem_singleton_self _)).lt_size hx
  have hnew : ∀ c ∈ new, ∀ x, c.Covers x → f.size ≤ x := fun c hc x hx =>
    Nat.le_trans (hfresh.inside c hc).1 hx.1
  refine ⟨hle, ?_, ?_, ?_, ?_, ⟨Nat.le_trans hs.root_le hle, ?_, ?_⟩, ?_⟩
  · exact fun x hx hout => hframe x hx (hout _ (hcells ▸ by simp))
  · rw [hcells, hcells']
    intro c hc
    rcases List.mem_append.mp hc with hc | hc
    · exact .of_mem (List.mem_append_left _ hc)
    · obtain rfl := List.mem_singleton.mp hc
      exact ⟨f.size, by simp, fun hne => absurd rfl hne⟩
  · rw [hcells, hcells']
    intro c hc x hx hcov
    rcases List.mem_append.mp hc with hc | hc
    · exact ⟨c, List.mem_append_left _ hc, hcov⟩
    · rcases List.mem_cons.mp hc with rfl | hc
      · exact ⟨.link a block 0, by simp, hcov⟩
      · exact absurd (hnew c hc x hcov) (Nat.not_le_of_lt hx)
  · rw [hcells, hcells']
    intro c hc hne hlt
    rcases List.mem_append.mp hc with hc | hc
    · exact ⟨c, List.mem_append_left _ hc, rfl⟩
    · rcases List.mem_cons.mp hc with rfl | hc
      · exact absurd hlt (Nat.lt_irrefl _)
      · exact absurd (hfresh.unlinked c hc) hne
  · rw [hcells']
    exact List.forall_mem_append.mpr ⟨fun c hc => (hs.left.fits c hc).congr hle (hu c hc),
      List.forall_mem_cons.mpr ⟨hlink, hfresh.fits⟩⟩
  · rw [hcells']
    refine List.pairwise_append.mpr ⟨hs.left.apart, .cons (fun c hc => ⟨fun x hx hx' => ?_,
      fun heq => heq.trans (hfresh.unlinked c hc)⟩) hfresh.apart, fun c hc c' hc' => ?_⟩
    · exact absurd (hnew c hc x hx') (Nat.not_le_of_lt (hin x hx))
    · have hfit := hs.left.fits c hc
      rcases List.mem_cons.mp hc' with rfl | hc'
      · refine ⟨(hapart c hc _ (List.mem_singleton_self _)).1, fun heq => ?_⟩
        by_contra hne
        exact absurd heq (Nat.ne_of_lt (hfit.target_lt hne))
      · refine ⟨fun x hx hx' => ?_, fun heq => heq.trans (hfresh.unlinked c' hc')⟩
        exact absurd (hnew c' hc' x hx') (Nat.not_le_of_lt (hfit.lt_size hx))
  · rw [hcells, hcells']
    intro h
    refine List.forall_mem_append.mpr ⟨fun c hc => ?_, List.forall_mem_cons.mpr
      ⟨trivial, hfresh.encoded⟩⟩
    exact (h c (List.mem_append_left _ hc)).congr (hu c hc)

/-- Linking a blank block at the end of the file makes a chain longer by it. -/
theorem ArrayLayout.evolves_linked {a : ArrayLayout} {block : Nat} (own : a.WellFormed)
    (he : a.element.WellFormed) (hext : a.extent = .chained)
    (hs : Sound rootSize f ((a.part rootSize block).cells f))
    (hend : f.next? rootSize a block = none) (hsize : g.size = f.size + a.size)
    (hlink : g.link a block = f.size) (hblank : g.Blank f.size a.size)
    (hframe : ∀ x < f.size, ¬ (Cell.link a block 0).Covers x → g.byte? x = f.byte? x) :
    Evolves rootSize (a.part rootSize block) f g ∧ g.next? rootSize a block = some f.size ∧
      a.values rootSize g block =
        a.values rootSize f block ++ List.replicate a.capacity a.element.zero ∧
      ∃ row new, (∀ c ∈ new, c.target = 0) ∧
        (a.part rootSize block).cells f = row ++ [.link a block 0] ∧
        (a.part rootSize block).cells g = row ++ .link a block f.size :: new := by
  have hsize' := own.size_of_chained hext
  have hpos : linkSize = 8 := rfl
  have hcells : (a.part rootSize block).cells f =
      rowCells rootSize f (a.places block) ++ [.link a block (f.link a block)] := by
    simp [part, Layout.cells_array_of_none hend, linkCells, hext]
  rw [hcells] at hs
  have hzero : f.link a block = 0 :=
    (hs.right.fits _ (List.mem_singleton_self _)).link_eq_zero hext hend
  rw [hzero] at hcells hs
  obtain ⟨-, hle, -⟩ := hs.right.fits _ (List.mem_singleton_self _)
  have hnext : g.next? rootSize a block = some f.size :=
    File.next?_eq_some_iff.mpr ⟨hext, hlink, by omega, hs.root_le, by omega⟩
  have hfits := Cell.fits_of_next? hsize' (by omega) hnext
  rw [hlink] at hfits
  obtain ⟨hrow, hvalues⟩ := rowPart_steady_of_wellFormed rootSize (a.forall_places he block) f g
    hs.left.fits (by omega) (.of_frame hs hframe)
  simp only [rowPart] at hrow hvalues
  obtain ⟨-, hfresh, hzeros⟩ := a.fresh rootSize own hblank (by omega)
    fun offset => he.fresh rootSize
  have hcells' : (a.part rootSize block).cells g = rowCells rootSize f (a.places block) ++
      .link a block f.size :: (a.part rootSize f.size).cells g := by
    simp [part, Layout.cells_array_of_some hnext, hrow]
  refine ⟨.of_linked hs hcells hcells' (by omega) hfits hfresh hframe, hnext, ?_,
    _, _, hfresh.unlinked, hcells, hcells'⟩
  rw [values_of_some hnext, hvalues, values_of_none hend, hzeros]

end RecordFile
