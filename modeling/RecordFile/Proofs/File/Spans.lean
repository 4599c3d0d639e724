import RecordFile.Proofs.File.Linked

/-!
# Where blocks lie

The root record and the blocks that links lead to take up spans of the file. The sizes of spans add up to
the number of bytes that they cover if and only if no two of them have a byte in common
(`exclusive_iff_card`).

Links that may be followed do not rule out that blocks overlap. But the cells of a file that is in order
have no byte in common, and they lie in the blocks and have as many bytes as these (`Tiles`), so there
the blocks have none in common either (`Sound.exclusive`).
-/

namespace RecordFile

/-- The `size` bytes from `start` on. -/
structure Span where
  start : Nat
  size : Nat
  deriving DecidableEq

namespace Span

def bytes (b : Span) : Finset Nat := .Ico b.start (b.start + b.size)

@[simp] theorem mem_bytes {b : Span} {x : Nat} :
    x ∈ b.bytes ↔ b.start ≤ x ∧ x < b.start + b.size := Finset.mem_Ico

@[simp] theorem card_bytes (b : Span) : b.bytes.card = b.size := by
  rw [bytes, Nat.card_Ico, Nat.add_sub_cancel_left]

end Span

/-- No two of the spans have a byte in common. -/
def Exclusive (spans : List Span) : Prop := spans.Pairwise fun b b' => Disjoint b.bytes b'.bytes

instance (spans : List Span) : Decidable (Exclusive spans) :=
  inferInstanceAs (Decidable (List.Pairwise _ _))

/-- The bytes of the spans. -/
def covered (spans : List Span) : Finset Nat := spans.foldr (fun b bytes => b.bytes ∪ bytes) ∅

section

variable {spans : List Span} {b : Span}

@[simp] theorem covered_cons : covered (b :: spans) = b.bytes ∪ covered spans := rfl

theorem mem_covered {x : Nat} : x ∈ covered spans ↔ ∃ b ∈ spans, x ∈ b.bytes := by
  induction spans with
  | nil => simp [covered]
  | cons b spans ih => rw [covered_cons, Finset.mem_union, List.exists_mem_cons_iff, ih]

theorem covered_subset_range {n : Nat} (hin : ∀ b ∈ spans, b.start + b.size ≤ n) :
    covered spans ⊆ Finset.range n := fun x hx => by
  obtain ⟨b, hb, hx⟩ := mem_covered.mp hx
  exact Finset.mem_range.mpr (Nat.lt_of_lt_of_le (Span.mem_bytes.mp hx).2 (hin b hb))

theorem disjoint_covered_iff :
    Disjoint b.bytes (covered spans) ↔ ∀ b' ∈ spans, Disjoint b.bytes b'.bytes := by
  simp only [Finset.disjoint_left, mem_covered]
  exact ⟨fun h b' hb' x hx hx' => h hx ⟨b', hb', hx'⟩, fun h x hx ⟨b', hb', hx'⟩ => h b' hb' hx hx'⟩

/-- The bytes of the spans and the others are all bytes that there are. -/
theorem card_covered_add_card {n : Nat} (hin : ∀ b ∈ spans, b.start + b.size ≤ n) :
    (covered spans).card + (Finset.range n \ covered spans).card = n := by
  rw [Nat.add_comm, Finset.card_sdiff_add_card_eq_card (covered_subset_range hin), Finset.card_range]

/-- A byte that is shared is counted more than once. -/
theorem card_covered_le (spans : List Span) : (covered spans).card ≤ (spans.map (·.size)).sum := by
  induction spans with
  | nil => exact Nat.le_refl _
  | cons b spans ih =>
    calc (covered (b :: spans)).card
      _ ≤ b.bytes.card + (covered spans).card := Finset.card_union_le ..
      _ ≤ b.size + (spans.map (·.size)).sum := by
        rw [b.card_bytes]
        exact Nat.add_le_add_left ih _

/-- No byte is counted more than once just if none is shared. -/
theorem exclusive_iff_card :
    Exclusive spans ↔ (covered spans).card = (spans.map (·.size)).sum := by
  induction spans with
  | nil => simp [Exclusive, covered]
  | cons b spans ih =>
    have hcard := Finset.card_union_add_card_inter b.bytes (covered spans)
    have hle := card_covered_le spans
    have hdisjoint : Disjoint b.bytes (covered spans) ↔ (b.bytes ∩ covered spans).card = 0 := by
      rw [Finset.card_eq_zero, Finset.disjoint_iff_inter_eq_empty]
    rw [Exclusive, List.pairwise_cons, ← disjoint_covered_iff, hdisjoint, ← Exclusive, ih,
      covered_cons, List.map_cons, List.sum_cons]
    rw [b.card_bytes] at hcard
    omega

end

/-- The blocks that the cells link. -/
def linkedSpans (cells : List Cell) : List Span :=
  (cells.filter (·.target ≠ 0)).map fun c => ⟨c.target, c.blockSize⟩

section

variable {cells cells' : List Cell}

theorem linkedSpans_append :
    linkedSpans (cells ++ cells') = linkedSpans cells ++ linkedSpans cells' := by
  simp [linkedSpans]

theorem sizes_linkedSpans : (linkedSpans cells).map (·.size) = linkedSizes cells := by
  rw [linkedSpans, List.map_map]
  rfl

theorem length_linkedSpans : (linkedSpans cells).length = linkedBlocks cells := by
  rw [← length_linkedSizes, ← sizes_linkedSpans, List.length_map]

theorem sum_linkedSpans : ((linkedSpans cells).map (·.size)).sum = linkedBytes cells := by
  rw [sizes_linkedSpans, sum_linkedSizes]

/-- The blocks of links that may be followed lie behind the root record, in the file. -/
theorem linkedSpans_inside {rootSize : Nat} {f : File} (hfits : ∀ c ∈ cells, c.Fits rootSize f) :
    ∀ b ∈ linkedSpans cells, rootSize ≤ b.start ∧ b.start + b.size ≤ f.size := by
  intro b hb
  obtain ⟨c, hc, rfl⟩ := List.mem_map.mp hb
  obtain ⟨hc, hne⟩ := List.mem_filter.mp hc
  cases c with
  | scalar kind offset => simp [Cell.target] at hne
  | link a block next =>
    obtain ⟨-, -, -, hzero | hleads⟩ := hfits _ hc
    · simp [Cell.target, hzero] at hne
    · exact hleads.2

end

/-! ## Cells in blocks -/

/-- The bytes of the cell. -/
def Cell.span (c : Cell) : Span := ⟨c.offset, c.width⟩

/-- The cells lie between `start` and `stop` and in the blocks that they link, and have as many bytes. -/
structure Tiles (start stop : Nat) (cells : List Cell) : Prop where
  le : start ≤ stop
  sum_eq : start + (cells.map Cell.width).sum = stop + linkedBytes cells
  inside : ∀ c ∈ cells, ∀ x ∈ c.span.bytes,
    start ≤ x ∧ x < stop ∨ x ∈ covered (linkedSpans cells)

namespace Tiles

variable {start mid stop : Nat} {cells cells' : List Cell}

theorem nil (start : Nat) : Tiles start start [] := ⟨Nat.le_refl _, rfl, nofun⟩

/-- A cell that links nothing. -/
theorem unlinked {c : Cell} (h : c.target = 0) : Tiles c.offset (c.offset + c.width) [c] where
  le := Nat.le_add_right ..
  sum_eq := by simp [linkedBytes, h]
  inside := by
    rintro c' hc' x hx
    obtain rfl := List.mem_singleton.mp hc'
    exact .inl (Span.mem_bytes.mp hx)

theorem append (h : Tiles start mid cells) (h' : Tiles mid stop cells') :
    Tiles start stop (cells ++ cells') where
  le := h.le.trans h'.le
  sum_eq := by
    have hsum := h.sum_eq
    have hsum' := h'.sum_eq
    rw [List.map_append, List.sum_append, linkedBytes_append]
    omega
  inside := by
    have hle := h.le
    have hle' := h'.le
    simp only [linkedSpans_append, mem_covered, List.mem_append, or_and_right, exists_or] at *
    rintro c (hc | hc) x hx
    · rcases h.inside c hc x hx with hin | hin
      · exact .inl (by omega)
      · exact .inr (.inl (mem_covered.mp hin))
    · rcases h'.inside c hc x hx with hin | hin
      · exact .inl (by omega)
      · exact .inr (.inr (mem_covered.mp hin))

/-- A link, and the block that it leads to. -/
theorem link {a : ArrayLayout} {next : Nat} (hne : next ≠ 0) (h : Tiles next (next + a.size) cells)
    (block : Nat) :
    Tiles (a.linkOffset block) (a.linkOffset block + linkSize) (.link a block next :: cells) where
  le := Nat.le_add_right ..
  sum_eq := by
    have hsum := h.sum_eq
    have hbytes : linkedBytes (.link a block next :: cells) = a.size + linkedBytes cells := by
      simp [linkedBytes, Cell.target, Cell.blockSize, hne]
    rw [hbytes, List.map_cons, List.sum_cons]
    show a.linkOffset block + (linkSize + _) = _
    omega
  inside := by
    have hspans : linkedSpans (.link a block next :: cells) = ⟨next, a.size⟩ :: linkedSpans cells := by
      simp [linkedSpans, Cell.target, Cell.blockSize, hne]
    rw [hspans, covered_cons]
    refine List.forall_mem_cons.mpr ⟨fun x hx => .inl (Span.mem_bytes.mp hx), fun c hc x hx => ?_⟩
    refine .inr (Finset.mem_union.mpr ?_)
    exact (h.inside c hc x hx).imp_left Span.mem_bytes.mpr

/-- The cells of places that lie one after the other. -/
theorem row {rootSize : Nat} {f : File} {row : List (Layout × Nat)} (hp : RowPacked start row stop)
    (h : ∀ p ∈ row, Tiles p.2 (p.2 + p.1.size) (p.1.cells rootSize f p.2)) :
    Tiles start stop (rowCells rootSize f row) := by
  induction row generalizing start with
  | nil =>
    obtain rfl : start = stop := hp
    exact .nil start
  | cons p row ih =>
    obtain ⟨rfl, hp⟩ := hp
    obtain ⟨hhead, hrow⟩ := List.forall_mem_cons.mp h
    rw [rowCells_cons]
    exact hhead.append (ih hp hrow)

end Tiles

section

variable {rootSize : Nat} {f : File}

/-- The cells of a part whose links may be followed. -/
theorem Layout.WellFormed.tiles {l : Layout} (hw : l.WellFormed) {offset : Nat}
    (hfits : ∀ c ∈ l.cells rootSize f offset, c.Fits rootSize f) :
    Tiles offset (offset + l.size) (l.cells rootSize f offset) := by
  induction hw generalizing offset with
  | scalar kind => exact .unlinked (c := .scalar kind offset) rfl
  | @record r own _ ih =>
    rw [cells_record] at hfits ⊢
    refine .row (own.places_packed offset) fun p hp => ?_
    obtain ⟨field, hfield, rfl⟩ := List.mem_map.mp hp
    exact ih field hfield fun c hc => hfits c (List.mem_flatMap.mpr ⟨_, hp, hc⟩)
  | @array a own _ ih =>
    have hrow (block : Nat) (h : ∀ c ∈ rowCells rootSize f (a.places block), c.Fits rootSize f) :
        Tiles block (a.linkOffset block) (rowCells rootSize f (a.places block)) := by
      refine .row (a.places_packed block) fun p hp => ?_
      obtain ⟨i, -, rfl⟩ := List.mem_map.mp hp
      exact ih fun c hc => h c (List.mem_flatMap.mpr ⟨_, hp, hc⟩)
    show Tiles offset (offset + a.size) _
    induction offset using File.chain_induct f rootSize a with
    | stop block hnext =>
      rw [cells_array_of_none hnext] at hfits ⊢
      obtain ⟨hcells, hlinks⟩ := List.forall_mem_append.mp hfits
      cases hext : a.extent with
      | fixed =>
        rw [ArrayLayout.linkCells, hext, List.append_nil, own.size_of_fixed hext]
        exact hrow block hcells
      | chained =>
        rw [ArrayLayout.linkCells, hext] at hlinks ⊢
        have hzero := (hlinks _ (List.mem_singleton_self _)).link_eq_zero hext hnext
        rw [own.size_of_chained hext, ← Nat.add_assoc]
        exact (hrow block hcells).append (.unlinked (c := .link a block _) hzero)
    | step block next hnext ih =>
      obtain ⟨hext, -, hleads⟩ := File.next?_eq_some_iff.mp hnext
      rw [cells_array_of_some hnext] at hfits ⊢
      obtain ⟨hcells, hlinks⟩ := List.forall_mem_append.mp hfits
      rw [own.size_of_chained hext, ← Nat.add_assoc]
      exact (hrow block hcells).append
        (.link hleads.ne_zero (ih fun c hc => hlinks c (List.mem_cons_of_mem _ hc)) block)

/-- In a file that is in order, a part and the blocks behind it have no byte in common. -/
theorem Sound.exclusive {l : Layout} (hw : l.WellFormed) {offset : Nat}
    (hs : Sound rootSize f (l.cells rootSize f offset)) :
    Exclusive (⟨offset, l.size⟩ :: linkedSpans (l.cells rootSize f offset)) := by
  have htiles := hw.tiles hs.fits
  have hcells : Exclusive ((l.cells rootSize f offset).map Cell.span) :=
    List.pairwise_map.mpr (hs.apart.imp fun hapart => Finset.disjoint_left.mpr fun x hx hx' =>
      hapart.1 x (Span.mem_bytes.mp hx) (Span.mem_bytes.mp hx'))
  have hsubset : covered ((l.cells rootSize f offset).map Cell.span) ⊆
      covered (⟨offset, l.size⟩ :: linkedSpans (l.cells rootSize f offset)) := fun x hx => by
    obtain ⟨b, hb, hx⟩ := mem_covered.mp hx
    obtain ⟨c, hc, rfl⟩ := List.mem_map.mp hb
    exact Finset.mem_union.mpr ((htiles.inside c hc x hx).imp_left Span.mem_bytes.mpr)
  have hwidths : ((l.cells rootSize f offset).map Cell.span).map (·.size) =
      (l.cells rootSize f offset).map Cell.width := List.map_map ..
  -- The cells have as many bytes as the blocks, so these cannot cover fewer.
  have hcard := exclusive_iff_card.mp hcells
  have hsum := htiles.sum_eq
  have hle := Finset.card_le_card hsubset
  have hge := card_covered_le (⟨offset, l.size⟩ :: linkedSpans (l.cells rootSize f offset))
  rw [exclusive_iff_card]
  rw [hwidths] at hcard
  rw [List.map_cons, List.sum_cons, sum_linkedSpans] at hge ⊢
  simp only at hge ⊢
  omega

end

end RecordFile
