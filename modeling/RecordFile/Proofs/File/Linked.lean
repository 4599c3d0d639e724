import RecordFile.Proofs.File.Part

/-!
# The blocks that a part links

Each link among the cells of a part that is not zero links a block. How many these are and how long
they are does not depend on where they lie: in files that are in order, parts of one type and of the
same value link blocks of the same sizes (`Layout.WellFormed.regular`). For a chain has as many blocks as
it takes to hold its elements.
-/

namespace RecordFile

/-- How many blocks are linked. -/
def linkedBlocks (cells : List Cell) : Nat := cells.countP fun c => c.target ≠ 0

/-- How many bytes the linked blocks have. -/
def linkedBytes (cells : List Cell) : Nat :=
  (cells.map fun c => if c.target = 0 then 0 else c.blockSize).sum

/-- The sizes of the linked blocks. -/
def linkedSizes (cells : List Cell) : List Nat :=
  (cells.filter (·.target ≠ 0)).map Cell.blockSize

section

variable {cells cells' : List Cell}

theorem linkedBlocks_append :
    linkedBlocks (cells ++ cells') = linkedBlocks cells + linkedBlocks cells' :=
  List.countP_append

theorem linkedBytes_append :
    linkedBytes (cells ++ cells') = linkedBytes cells + linkedBytes cells' := by
  simp [linkedBytes]

theorem linkedSizes_append :
    linkedSizes (cells ++ cells') = linkedSizes cells ++ linkedSizes cells' := by
  simp [linkedSizes]

theorem linkedBlocks_perm (h : cells.Perm cells') : linkedBlocks cells = linkedBlocks cells' :=
  h.countP_eq _

theorem linkedBytes_perm (h : cells.Perm cells') : linkedBytes cells = linkedBytes cells' :=
  (h.map _).sum_eq

theorem linkedSizes_perm (h : cells.Perm cells') : (linkedSizes cells).Perm (linkedSizes cells') :=
  (h.filter _).map _

theorem length_linkedSizes (cells : List Cell) : (linkedSizes cells).length = linkedBlocks cells := by
  rw [linkedSizes, List.length_map, linkedBlocks, List.countP_eq_length_filter]

theorem sum_linkedSizes (cells : List Cell) : (linkedSizes cells).sum = linkedBytes cells := by
  induction cells with
  | nil => rfl
  | cons c cells ih =>
    rw [← List.singleton_append, linkedSizes_append, List.sum_append, linkedBytes_append, ih]
    by_cases h : c.target = 0 <;> simp [linkedSizes, linkedBytes, h]

theorem linkedSizes_of_unlinked (h : ∀ c ∈ cells, c.target = 0) : linkedSizes cells = [] := by
  simpa [linkedSizes] using h

theorem linkedBlocks_of_unlinked (h : ∀ c ∈ cells, c.target = 0) : linkedBlocks cells = 0 := by
  rw [← length_linkedSizes, linkedSizes_of_unlinked h]
  rfl

theorem linkedBytes_of_unlinked (h : ∀ c ∈ cells, c.target = 0) : linkedBytes cells = 0 := by
  rw [← sum_linkedSizes, linkedSizes_of_unlinked h]
  rfl

section

variable {a : ArrayLayout} {block next : Nat} {row new : List Cell}

/-- Where a link is no longer zero, a block is linked. The cells of the block link none. -/
theorem linkedSizes_append_link (hne : next ≠ 0) (hnew : ∀ c ∈ new, c.target = 0) :
    linkedSizes (row ++ .link a block next :: new) =
      linkedSizes (row ++ [.link a block 0]) ++ [a.size] := by
  rw [List.append_cons, linkedSizes_append, linkedSizes_append, linkedSizes_append,
    linkedSizes_of_unlinked hnew]
  simp [linkedSizes, Cell.target, Cell.blockSize, hne]

theorem linkedBlocks_append_link (hne : next ≠ 0) (hnew : ∀ c ∈ new, c.target = 0) :
    linkedBlocks (row ++ .link a block next :: new) =
      linkedBlocks (row ++ [.link a block 0]) + 1 := by
  rw [← length_linkedSizes, linkedSizes_append_link hne hnew, List.length_append,
    length_linkedSizes, List.length_singleton]

theorem linkedBytes_append_link (hne : next ≠ 0) (hnew : ∀ c ∈ new, c.target = 0) :
    linkedBytes (row ++ .link a block next :: new) =
      linkedBytes (row ++ [.link a block 0]) + a.size := by
  rw [← sum_linkedSizes, linkedSizes_append_link hne hnew, List.sum_append, sum_linkedSizes,
    List.sum_singleton]

end

end

/-! ## Parts of the same value -/

variable {rootSize : Nat} {f g : File}

/-- Each block of a chain but the first is linked once. -/
theorem ArrayLayout.linkedSizes_links {a : ArrayLayout} {block : Nat}
    (h : ∀ c ∈ a.links rootSize f block, c.Fits rootSize f) :
    linkedSizes (a.links rootSize f block) =
      List.replicate ((f.chain rootSize a block).length - 1) a.size := by
  induction block using File.chain_induct f rootSize a with
  | stop block hnext =>
    rw [links_of_none hnext] at h ⊢
    rw [File.chain_of_none hnext]
    refine linkedSizes_of_unlinked fun c hc => ?_
    -- A link that is in order leads to the next block or is zero.
    cases hext : a.extent with
    | fixed => simp [linkCells, hext] at hc
    | chained =>
      obtain rfl : c = .link a block (f.link a block) := by simpa [linkCells, hext] using hc
      exact (h _ hc).link_eq_zero hext hnext
  | step block next hnext ih =>
    obtain ⟨hext, hlink, hleads⟩ := File.next?_eq_some_iff.mp hnext
    rw [links_of_some hnext] at h ⊢
    have hone : linkedSizes (a.linkCells f block) = [a.size] := by
      simp [linkedSizes, linkCells, hext, hlink, Cell.target, Cell.blockSize, hleads.ne_zero]
    have hpos : 0 < (f.chain rootSize a next).length :=
      List.length_pos_of_mem (File.mem_chain_self f rootSize a next)
    rw [linkedSizes_append, hone, ih fun c hc => h c (List.mem_append_right _ hc),
      File.chain_of_some hnext, List.length_cons, Nat.add_sub_cancel, List.singleton_append,
      ← List.replicate_succ]
    congr 1
    omega

/-- A type whose places link blocks of the same sizes if they hold the same value. -/
def Layout.Regular (l : Layout) (rootSize : Nat) (f g : File) : Prop :=
  ∀ offset offset', (∀ c ∈ l.cells rootSize f offset, c.Fits rootSize f) →
    (∀ c ∈ l.cells rootSize g offset', c.Fits rootSize g) →
    l.value rootSize f offset = l.value rootSize g offset' →
    (linkedSizes (l.cells rootSize f offset)).Perm (linkedSizes (l.cells rootSize g offset'))

/-- Rows of such types. -/
theorem linkedSizes_rowCells {row row' : List (Layout × Nat)}
    (hrow : ∀ p ∈ row, p.1.Regular rootSize f g) (hlayouts : row.map (·.1) = row'.map (·.1))
    (hfits : ∀ c ∈ rowCells rootSize f row, c.Fits rootSize f)
    (hfits' : ∀ c ∈ rowCells rootSize g row', c.Fits rootSize g)
    (hvalues : rowValues rootSize f row = rowValues rootSize g row') :
    (linkedSizes (rowCells rootSize f row)).Perm (linkedSizes (rowCells rootSize g row')) := by
  induction row generalizing row' with
  | nil =>
    obtain rfl := List.map_eq_nil_iff.mp hlayouts.symm
    exact .refl _
  | cons p row ih =>
    obtain _ | ⟨q, row'⟩ := row'
    · cases hlayouts
    obtain ⟨l, offset⟩ := p
    obtain ⟨l', offset'⟩ := q
    obtain ⟨rfl, hrest⟩ := List.cons.inj hlayouts
    obtain ⟨hvalue, hvalues⟩ := List.cons.inj hvalues
    obtain ⟨hl, hrow⟩ := List.forall_mem_cons.mp hrow
    rw [rowCells_cons] at hfits hfits' ⊢
    obtain ⟨hfit, hfits⟩ := List.forall_mem_append.mp hfits
    obtain ⟨hfit', hfits'⟩ := List.forall_mem_append.mp hfits'
    rw [rowCells_cons, linkedSizes_append, linkedSizes_append]
    exact (hl offset offset' hfit hfit' hvalue).append (ih hrow hrest hfits hfits' hvalues)

theorem RecordLayout.regular {r : RecordLayout}
    (hfields : ∀ field ∈ r.fields, field.layout.Regular rootSize f g) :
    (Layout.record r).Regular rootSize f g := by
  intro offset offset' hfits hfits' hvalue
  rw [Layout.cells_record] at hfits hfits' ⊢
  rw [Layout.cells_record]
  rw [Layout.value_record, Layout.value_record, Value.record.injEq] at hvalue
  have hlen (h : File) (start : Nat) :
      (rowValues rootSize h (r.places start)).length = (r.fields.map (·.name)).length := by
    simp
  have hvalues := congrArg (List.map Prod.snd) hvalue
  rw [List.map_snd_zip (Nat.le_of_eq (hlen f offset)),
    List.map_snd_zip (Nat.le_of_eq (hlen g offset'))] at hvalues
  refine linkedSizes_rowCells (r.forall_places (P := (·.Regular rootSize f g)) hfields offset) ?_
    hfits hfits' hvalues
  rw [r.layouts_places, r.layouts_places]

theorem ArrayLayout.regular {a : ArrayLayout} (helement : a.element.Regular rootSize f g) :
    (Layout.array a).Regular rootSize f g := by
  intro offset offset' hfits hfits' hvalue
  have hperm := @Layout.cells_array_perm rootSize f a offset
  have hperm' := @Layout.cells_array_perm rootSize g a offset'
  have hfits := fun c hc => hfits c (hperm.mem_iff.mpr hc)
  have hfits' := fun c hc => hfits' c (hperm'.mem_iff.mpr hc)
  obtain ⟨hrow, hlinks⟩ := List.forall_mem_append.mp hfits
  obtain ⟨hrow', hlinks'⟩ := List.forall_mem_append.mp hfits'
  rw [Layout.value_array, Layout.value_array, Value.array.injEq] at hvalue
  have hlength := congrArg List.length hvalue
  rw [length_values, length_values] at hlength
  have hchain := Nat.eq_of_mul_eq_mul_right a.capacity_pos hlength
  have hlayouts (h : File) (start : Nat) :
      ((Layout.array a).children rootSize h start).map (·.1) =
        List.replicate ((h.chain rootSize a start).length * a.capacity) a.element := by
    rw [List.eq_replicate_iff, List.length_map, ← length_values, values, length_rowValues]
    refine ⟨rfl, fun l hl => ?_⟩
    obtain ⟨p, hp, rfl⟩ := List.mem_map.mp hl
    exact Layout.layout_of_mem_children hp
  have helements := linkedSizes_rowCells (fun p hp => Layout.layout_of_mem_children hp ▸ helement)
    ((hlayouts f offset).trans (by rw [hchain, hlayouts g offset'])) hrow hrow' hvalue
  refine (linkedSizes_perm hperm).trans (.trans ?_ (linkedSizes_perm hperm'.symm))
  rw [linkedSizes_append, linkedSizes_append, linkedSizes_links hlinks, linkedSizes_links hlinks',
    hchain]
  exact helements.append_right _

/-- Parts of one type and of the same value link blocks of the same sizes, if their links are in
order. -/
theorem Layout.WellFormed.regular {l : Layout} (hw : l.WellFormed) : l.Regular rootSize f g := by
  induction hw with
  | scalar kind => exact fun _ _ _ _ _ => .refl _
  | record _ _ ih => exact RecordLayout.regular ih
  | array _ _ ih => exact ArrayLayout.regular ih

end RecordFile
