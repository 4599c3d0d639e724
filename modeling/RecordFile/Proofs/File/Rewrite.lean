import RecordFile.Proofs.File.Blank
import RecordFile.Proofs.Image

/-!
# Overwriting with an image

A run, whether it is one scalar or merged from the parts of a record or of slots, is written in one
call. That is an overwrite which leaves all cells where they are and links as they are, and gives
the part the value that was encoded (`Layout.WellFormed.rewrites_run`): writing the merged run does
what writing its parts one by one would do.
-/

namespace RecordFile

/-- The part has evolved, and its cells are the same. -/
structure Rewrites {α : Type} (rootSize : Nat) (P : Part α) (f g : File) : Prop where
  size_eq : g.size = f.size
  evolves : Evolves rootSize P f g
  cells_perm : (P.cells g).Perm (P.cells f)

/-- The file with `data` in place of its bytes from `offset` on. -/
def File.overwritten (f : File) (offset : Nat) (data : ByteArray) : File :=
  ⟨overwrite f.bytes offset data⟩

section

variable {α β : Type} {rootSize : Nat} {P : Part α} {M : Part β} {f g h : File}

theorem Rewrites.refl (hs : Sound rootSize f (P.cells f)) : Rewrites rootSize P f f :=
  ⟨rfl, .refl hs, .refl _⟩

theorem Rewrites.trans (h₁ : Rewrites rootSize P f g) (h₂ : Rewrites rootSize P g h) :
    Rewrites rootSize P f h :=
  ⟨h₂.size_eq.trans h₁.size_eq, h₁.evolves.trans h₂.evolves, h₂.cells_perm.trans h₁.cells_perm⟩

/-- A part is rewritten as a smaller part inside it is. -/
theorem Rewrites.hole {ctx : List Cell} {fill : β → α} (hr : Rewrites rootSize M f g)
    (hole : P.Hole M f ctx fill) (hs : Sound rootSize f (P.cells f)) :
    Rewrites rootSize P f g ∧ P.value g = fill (M.value g) := by
  have hu := hr.evolves.untouched (hs.perm hole.perm)
  obtain ⟨hperm, hvalue⟩ := hole g hr.evolves.size_le hu
  refine ⟨⟨hr.size_eq, hr.evolves.hole hole hs, ?_⟩, hvalue⟩
  exact (hperm.trans (hr.cells_perm.append_left ctx)).trans hole.perm.symm

end

/-! ## Scalars -/

variable {rootSize : Nat} {f : File}

theorem rewrites_scalar {kind : Scalar} {v : Value} {bytes : ByteArray} {offset : Nat}
    (h : kind.encode v = .ok bytes)
    (hs : Sound rootSize f ((Layout.scalar kind).cells rootSize f offset)) :
    Rewrites rootSize ((Layout.scalar kind).part rootSize offset) f (f.overwritten offset bytes) ∧
      (Layout.scalar kind).value rootSize (f.overwritten offset bytes) offset =
        (Layout.scalar kind).overlay v ((Layout.scalar kind).value rootSize f offset) := by
  have hwidth := Scalar.size_of_encode h
  have hfit : offset + kind.width ≤ f.size := hs.fits (.scalar kind offset) (.head _)
  rw [← hwidth] at hfit
  have hsize : (f.overwritten offset bytes).size = f.size := size_overwrite hfit
  have hnumber : (f.overwritten offset bytes).number offset kind.width = littleEndianValue bytes := by
    rw [File.number, ← hwidth]
    exact congrArg littleEndianValue (File.extract_overwrite hfit)
  refine ⟨⟨hsize, ⟨Nat.le_of_eq hsize.symm, fun x hx hout => ?_, fun c hc => .of_mem hc,
    fun c hc _ _ hx => ⟨c, hc, hx⟩, fun c hc _ _ => ⟨c, hc, rfl⟩, ?_,
    fun _ => List.forall_mem_singleton.mpr ⟨v, bytes, h, hnumber.symm⟩⟩, .refl _⟩, ?_⟩
  · have hnot := hout (.scalar kind offset) (.head _)
    refine File.byte?_overwrite_of_outside hfit ?_
    simp only [Cell.Covers, Cell.offset, Cell.width, ← hwidth] at hnot
    omega
  · refine ⟨hsize ▸ hs.root_le, fun c hc => ?_, List.pairwise_singleton ..⟩
    obtain rfl := List.mem_singleton.mp hc
    show offset + kind.width ≤ _
    rwa [hsize, ← hwidth]
  · rw [Layout.value_scalar, hnumber, Layout.overlay, h]
    simp only [bind, Except.bind, Scalar.decode_of_size hwidth]

/-! ## Rows -/

/-- What rewriting with a run does. -/
def Layout.RewritesRun (rootSize : Nat) (l : Layout) : Prop :=
  ∀ (f : File) (offset : Nat) (v : Value) (bytes : ByteArray), l.image v = .ok (.run bytes) →
    Sound rootSize f (l.cells rootSize f offset) → offset + l.size ≤ f.size →
    Rewrites rootSize (l.part rootSize offset) f (f.overwritten offset bytes) ∧
      l.value rootSize (f.overwritten offset bytes) offset =
        l.overlay v (l.value rootSize f offset)

theorem File.overwritten_empty (f : File) (offset : Nat) :
    f.overwritten offset ByteArray.empty = f := by
  have hempty : ByteArray.empty.size = 0 := rfl
  obtain ⟨bytes⟩ := f
  simp only [overwritten, overwrite_eq, hempty, Nat.add_zero, ByteArray.append_empty, mk.injEq]
  rw [ByteArray.extract_append_extract, Nat.zero_min, ByteArray.extract_zero_max_size]

/-- Two runs side by side are one. -/
theorem File.overwritten_append {f : File} {offset : Nat} {first more : ByteArray}
    (hle : offset + first.size + more.size ≤ f.size) :
    (f.overwritten offset first).overwritten (offset + first.size) more =
      f.overwritten offset (first ++ more) := by
  refine congrArg File.mk (File.overwrite_append ?_).symm
  rw [ByteArray.size_append]
  omega

/-- A merged run rewrites its places one by one. -/
theorem rewrites_row {row : List (Layout × Nat)} {start stop : Nat} (hrow : RowPacked start row stop)
    (hw : ∀ p ∈ row, p.1.WellFormed) (hruns : ∀ p ∈ row, p.1.RewritesRun rootSize)
    {vs : List Value} {parts : List Image} (himages : RowImages (row.map (·.1)) vs parts)
    {bytes : ByteArray} (hmerge : Image.merge? ((row.map (·.1.size)).zip parts) = some bytes)
    (hs : Sound rootSize f (rowCells rootSize f row)) (hle : stop ≤ f.size) :
    Rewrites rootSize (rowPart rootSize row) f (f.overwritten start bytes) ∧
      rowValues rootSize (f.overwritten start bytes) row =
        Layout.overlayRow (row.map (·.1)) vs (rowValues rootSize f row) := by
  induction row generalizing f start vs parts bytes with
  | nil =>
    cases himages
    obtain rfl := Image.merge?_nil hmerge
    rw [File.overwritten_empty]
    exact ⟨.refl hs, rfl⟩
  | cons p row ih =>
    obtain ⟨rfl, hrow⟩ := hrow
    rw [List.map_cons] at himages
    cases himages with
    | nil =>
      rw [List.zip_nil_right] at hmerge
      obtain rfl := Image.merge?_nil hmerge
      rw [File.overwritten_empty]
      exact ⟨.refl hs, rfl⟩
    | @cons _ _ v vs part parts hv himages =>
      obtain ⟨hw₁, hw⟩ := List.forall_mem_cons.mp hw
      obtain ⟨hrun, hruns⟩ := List.forall_mem_cons.mp hruns
      obtain ⟨first, more, rfl, hfirst, hmore, rfl⟩ := Image.merge?_cons hmerge
      replace hfirst : first.size = p.1.size := hfirst
      have hstop := hrow.le
      have hhead := rowPart_hole_head hw hs
      obtain ⟨hrewrites, hvalue⟩ :=
        hrun f p.2 v first hv (hhead.sound hs) (Nat.le_trans hstop hle)
      obtain ⟨hrewrites₁, hvalues₁⟩ := hrewrites.hole hhead hs
      have hs₁ := hrewrites₁.evolves.sound
      have htail := rowPart_hole_tail hw₁ hs₁
      have hsize₂ := Image.size_of_merge hrow hmore
      obtain ⟨hrewrites₂, hvalues₂⟩ :=
        ih hrow hw hruns himages hmore (htail.sound hs₁) (hrewrites.size_eq ▸ hle)
      obtain ⟨hrewrites₃, hvalues₃⟩ := hrewrites₂.hole htail hs₁
      have hlast : (f.overwritten p.2 first).overwritten (p.2 + p.1.size) more =
          f.overwritten p.2 (first ++ more) := hfirst ▸ File.overwritten_append (by omega)
      rw [hlast] at hrewrites₃ hvalues₃ hvalues₂
      have hrest : rowValues rootSize (f.overwritten p.2 first) row = rowValues rootSize f row :=
        (List.cons.inj hvalues₁).2
      refine ⟨hrewrites₁.trans hrewrites₃, hvalues₃.trans ?_⟩
      show _ :: rowValues rootSize _ row = _
      rw [hvalues₂, hrest, hvalue]
      rfl

/-- Merged slots rewrite the first slots of a block. -/
theorem ArrayLayout.rewrites_slots {a : ArrayLayout} (hw : a.element.WellFormed)
    (hrun : a.element.RewritesRun rootSize) {vs : List Value} {parts : List Image}
    (himages : RowImages (List.replicate a.capacity a.element) vs parts) {bytes : ByteArray}
    (hmerge : Image.ofSlots a.element.size parts = .run bytes) {block : Nat}
    (hs : Sound rootSize f (rowCells rootSize f (a.places block)))
    (hle : block + a.slotsSize ≤ f.size) :
    Rewrites rootSize (rowPart rootSize (a.places block)) f (f.overwritten block bytes) ∧
      rowValues rootSize (f.overwritten block bytes) (a.places block) =
        overlayItems a.element.overlay vs (rowValues rootSize f (a.places block)) := by
  have hlen := himages.length_le
  rw [List.length_replicate] at hlen
  have hmerge := Image.merge?_of_slots block hlen hmerge
  obtain ⟨hrewrites, hvalues⟩ := rewrites_row (a.places_packed block)
    (a.forall_places hw block) (a.forall_places hrun block)
    (a.layouts_places block ▸ himages) hmerge hs hle
  refine ⟨hrewrites, hvalues.trans ?_⟩
  rw [a.layouts_places]
  exact Layout.overlayRow_replicate (himages.length_eq ▸ hlen) (by simp)

/-- A run rewrites the place that it is written to. -/
theorem Layout.WellFormed.rewrites_run {l : Layout} (hw : l.WellFormed) :
    l.RewritesRun rootSize := by
  induction hw with
  | scalar kind =>
    intro f offset v bytes h hs _
    obtain ⟨bytes', hencode, heq⟩ := image_scalar_eq_ok_iff.mp h
    cases heq
    exact rewrites_scalar hencode hs
  | @record r own fields ih =>
    intro f offset v bytes h hs hle
    obtain ⟨supplied, vs, parts, rfl, hvs, himages, heq⟩ := image_record_ok h
    split at heq
    · rename_i hmerge
      cases heq
      have hlayouts := r.layouts_places offset
      rw [← r.map_places offset Layout.size] at hmerge
      have hole := r.hole rootSize f offset
      obtain ⟨hrewrites, hvalues⟩ := rewrites_row (own.places_packed offset)
        (r.forall_places fields offset) (r.forall_places ih offset) (hlayouts ▸ himages) hmerge
        (hole.sound hs) hle
      obtain ⟨hrewrites, hvalue⟩ := hrewrites.hole hole hs
      refine ⟨hrewrites, hvalue.trans ?_⟩
      show Value.record (List.zip _ (rowValues rootSize _ _)) = _
      rw [hvalues, hlayouts, value_record, overlay_record hvs (by simp)]
    · cases heq
  | @array a own element ih =>
    intro f offset v bytes h hs hle
    obtain ⟨items, parts, rfl, hlen, himages, heq⟩ := image_array_ok h
    cases hext : a.extent with
    | chained =>
      rw [hext] at heq
      cases heq
    | fixed =>
      rw [hext] at heq
      have hsize := own.size_of_fixed hext
      have hnext : f.next? rootSize a offset = none := File.next?_of_fixed hext
      obtain ⟨ctx, hblock⟩ := ArrayLayout.hole_block element hs
      have hole := (a.hole offset).trans hblock
      obtain ⟨hrewrites, hvalues⟩ := ArrayLayout.rewrites_slots element ih
        (himages.slice (hlen hext)) heq.symm (hole.sound hs) (hsize ▸ hle)
      obtain ⟨hrewrites, hvalue⟩ := hrewrites.hole hole hs
      refine ⟨hrewrites, hvalue.trans ?_⟩
      show Value.array (rowValues rootSize _ _ ++ _) = _
      rw [hvalues, value_array, overlay_array, ArrayLayout.lengthen_of_fixed hext,
        ArrayLayout.values_eq, ArrayLayout.rest, hnext, List.append_nil, List.append_nil]

end RecordFile
