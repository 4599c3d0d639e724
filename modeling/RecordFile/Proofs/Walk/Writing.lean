import RecordFile.Proofs.File.Rewrite
import RecordFile.Proofs.Walk.Growth

/-!
# Writing an image

Writing the image of a value to a place overlays the value that is there (`does_writeImage`). The
proof follows the image: a run is one overwrite, the parts of a record or of slots are places in a
row, each written by itself (`does_writeRow`), and the blocks of a chained array are written along
the chain, which is as long as it needs to be when they are done (`does_writeBlocks`).
-/

namespace RecordFile

open Session

section

variable {δ : Type} [Device δ] {rootSize : Nat}

/-- Writes parts to the first places of a row. -/
def writeRow (rootSize : Nat) : List (Layout × Nat) → List Image → Action (Session δ) Unit
  | p :: row, part :: parts => do
    writeImage rootSize p.1 p.2 part
    writeRow rootSize row parts
  | _, _ => pure ()

theorem keeps_writeRow {R : Session δ → Session δ → Prop} [GrowStable R] (rootSize : Nat)
    (row : List (Layout × Nat)) (parts : List Image) : Keeps R (writeRow rootSize row parts) := by
  induction row generalizing parts with
  | nil => exact ⟨ReadStable.refl⟩
  | cons p row ih =>
    cases parts with
    | nil => exact ⟨ReadStable.refl⟩
    | cons part parts =>
      have := ih parts
      rw [writeRow]
      infer_instance

instance {R : Session δ → Session δ → Prop} [GrowStable R] (rootSize : Nat)
    (row : List (Layout × Nat)) (parts : List Image) : Keeps R (writeRow rootSize row parts) :=
  keeps_writeRow ..

/-- The fields of a record that lies in a file are a row. -/
theorem writeFields_eq {offset : Nat} {fields : List FieldLayout} {parts : List Image}
    (h : ∀ f ∈ fields, offset + f.offset < wordLimit) :
    writeFields (δ := δ) rootSize offset fields parts =
      writeRow rootSize (fields.map fun f => (f.layout, offset + f.offset)) parts := by
  induction fields generalizing parts with
  | nil => simp [writeFields, writeRow]
  | cons f fields ih =>
    cases parts with
    | nil => simp [writeFields, writeRow]
    | cons part parts =>
      obtain ⟨hf, h⟩ := List.forall_mem_cons.mp h
      rw [writeFields, checkedAdd_eq_some_iff.mpr ⟨rfl, hf⟩, ih h]
      rfl

theorem RecordLayout.WellFormed.writeFields_eq {r : RecordLayout} (own : r.WellFormed) {offset : Nat}
    {parts : List Image} (hlt : offset + r.size < wordLimit) :
    writeFields (δ := δ) rootSize offset r.fields parts =
      writeRow rootSize (r.places offset) parts := by
  refine RecordFile.writeFields_eq fun f hf => ?_
  have := (own.packed.le_of_mem hf).2
  omega

/-- The slots of a block that lies in a file are a row. -/
theorem writeSlots_eq {a : ArrayLayout} (own : a.WellFormed) {block index : Nat}
    {parts : List Image} (hlt : block + a.size < wordLimit)
    (hlen : index + parts.length ≤ a.capacity) :
    writeSlots (δ := δ) rootSize a block index parts =
      writeRow rootSize ((a.places block).drop index) parts := by
  induction parts generalizing index with
  | nil => cases h : (a.places block).drop index <;> simp [writeSlots, writeRow]
  | cons part parts ih =>
    rw [List.length_cons] at hlen
    have hindex : index < a.capacity := by omega
    have hplace := a.drop_places hindex block
    rw [writeSlots, a.slotOffset?_eq own hindex hlt, ih (by omega), hplace]
    rfl

/-- Blocks that begin behind a block begin at the next one. -/
theorem writeBlocks_false {a : ArrayLayout} {block : Nat} {part : Image} {parts : List Image} :
    writeBlocks (δ := δ) rootSize a block false (part :: parts) =
      Chain.followOrExtend rootSize a block >>= fun next =>
        writeBlocks rootSize a next true (part :: parts) := by
  rw [writeBlocks]
  simp only [writeBlocks, Bool.false_eq_true, if_false, if_true, pure_bind]

theorem writeBlocks_true {a : ArrayLayout} {block : Nat} {part : Image} {parts : List Image} :
    writeBlocks (δ := δ) rootSize a block true (part :: parts) =
      writeImage rootSize (.array a) block part >>= fun _ =>
        writeBlocks rootSize a block false parts := by
  rw [writeBlocks]
  simp only [if_true, pure_bind]

end

variable {δ : Type} [Device δ] [LawfulDevice δ] {rootSize : Nat} {E : Halt → Prop}
  {s : Session δ}

/-- What writing an image of a type does. -/
def Layout.Writes (δ : Type) [Device δ] [LawfulDevice δ] (rootSize : Nat) (l : Layout) : Prop :=
  ∀ (E : Halt → Prop) (s : Session δ) (offset : Nat) (v : Value) (image : Image),
    l.image v = .ok image →
    Sound rootSize s.file (l.cells rootSize s.file offset) →
    offset + l.size ≤ s.file.size →
    Does rootSize (l.part rootSize offset) (l.writing v) E (writeImage rootSize l offset image) s
      fun _ s' => l.value rootSize s'.file offset = l.overlay v (l.value rootSize s.file offset)

/-- An overwrite that rewrites a part. -/
theorem does_write {α : Type} {P : Part α} {D : Drift α} {offset : Nat} {data : ByteArray}
    (h : Rewrites rootSize P s.file (s.file.overwritten offset data))
    (hs : Sound rootSize s.file (P.cells s.file)) (hle : offset + data.size ≤ s.file.size)
    (hD : D.rel (P.value s.file) (P.value (s.file.overwritten offset data))) :
    Does rootSize P D E (Session.write offset data) s fun _ s' =>
      s'.file = s.file.overwritten offset data := by
  refine Ends.of_wp ((wp_write s offset data).mono (fun _ s' hw => ?_) fun _ s' hw => ?_)
  · obtain ⟨hfile, hcount, hledger, -⟩ := hw
    replace hfile : s'.file = s.file.overwritten offset data := hfile
    have hsize : s'.file.size = s.file.size := hfile ▸ h.size_eq
    have hblocks := linkedBlocks_perm h.cells_perm
    have hbytes := linkedBytes_perm h.cells_perm
    rw [← hfile] at hblocks hbytes
    refine ⟨⟨⟨hfile ▸ h.evolves, fun blocks bytes ha => ?_, fun _ => by omega⟩, hfile ▸ hD⟩, hfile⟩
    exact ha.after 0 (by omega) hledger (fun _ _ => rfl) (by omega)
  · obtain ⟨hfile, hcount, hledger, hbound⟩ := hw
    refine ⟨.of_same hs ⟨hfile, hcount, fun hp => ?_⟩, fun hinf => ?_⟩
    · rw [hledger]
      cases hk : s.ledger with
      | none => rfl
      | some k =>
        obtain ⟨pending, lost⟩ := k
        obtain rfl : pending = 0 := hp _ hk
        rfl
    · exact absurd (hbound hinf) (Nat.not_lt_of_le hle)

/-! ## Rows -/

/-- Each part of a row overlays its place. -/
theorem does_writeRow {row : List (Layout × Nat)} {vs : List Value} {parts : List Image}
    {D : Drift (List Value)}
    (hw : ∀ p ∈ row, p.1.WellFormed) (hwrites : ∀ p ∈ row, p.1.Writes δ rootSize)
    (himages : RowImages (row.map (·.1)) vs parts)
    (hs : Sound rootSize s.file (rowCells rootSize s.file row))
    (hle : ∀ p ∈ row, p.2 + p.1.size ≤ s.file.size) (hD : D.Admits ((row.map (·.1)).zip vs)) :
    Does rootSize (rowPart rootSize row) D E (writeRow rootSize row parts) s fun _ s' =>
      rowValues rootSize s'.file row =
        Layout.overlayRow (row.map (·.1)) vs (rowValues rootSize s.file row) := by
  induction row generalizing s vs parts D with
  | nil => exact Does.pure hs (by cases himages; rfl)
  | cons p row ih =>
    rw [List.map_cons] at himages hD
    cases himages with
    | nil => exact Does.pure hs rfl
    | @cons _ _ v vs part parts hv himages =>
      obtain ⟨hw₁, hw⟩ := List.forall_mem_cons.mp hw
      obtain ⟨hwrite, hwrites⟩ := List.forall_mem_cons.mp hwrites
      obtain ⟨hle₁, hle⟩ := List.forall_mem_cons.mp hle
      rw [List.zip_cons_cons] at hD
      rw [writeRow]
      refine Does.bind (Does.hole (rowPart_hole_head hw hs) hs (fun _ h => hD.head h) fun hs =>
        hwrite E s p.2 v part hv hs hle₁) fun _ s₁ _ hp h => ?_
      obtain ⟨-, hfill, hvalue⟩ := h
      have hsize := hp.evolves.size_le
      refine (Does.hole (rowPart_hole_tail hw₁ hp.sound) hp.sound (fun _ h => h) fun hs =>
        ih hw hwrites himages hs (fun q hq => Nat.le_trans (hle q hq) hsize) (hD.tail _)).mono
          fun _ s' _ _ h => ?_
      obtain ⟨-, hfill', hvalues⟩ := h
      have hrest : rowValues rootSize s₁.file row = rowValues rootSize s.file row :=
        (List.cons.inj hfill).2
      refine hfill'.trans ?_
      show _ :: rowValues rootSize _ row = _
      rw [hvalues, hrest, hvalue]
      rfl

/-! ## Arrays -/

namespace ArrayLayout

variable {a : ArrayLayout} {block : Nat}

/-- Images of elements overlay the first slots of a block. -/
theorem does_writeBlock {D : Drift (List Value)} (own : a.WellFormed) (he : a.element.WellFormed)
    (hwrites : a.element.Writes δ rootSize) {vs : List Value} {parts : List Image}
    (himages : RowImages (List.replicate a.capacity a.element) vs parts)
    (hs : Sound rootSize s.file (rowCells rootSize s.file (a.places block)))
    (hle : block + a.size ≤ s.file.size) (hD : D.Admits (vs.map (a.element, ·))) :
    Does rootSize (rowPart rootSize (a.places block)) D E
      (writeImage rootSize (.array a) block (.ofSlots a.element.size parts)) s fun _ s' =>
        rowValues rootSize s'.file (a.places block) =
          overlayItems a.element.overlay vs (rowValues rootSize s.file (a.places block)) := by
  refine Does.of_fits fun hfit => ?_
  have hslots := own.slotsSize_le
  have hlen := himages.length_le
  rw [List.length_replicate] at hlen
  rw [← replicate_zip (himages.length_eq ▸ hlen)] at hD
  rcases Image.ofSlots_cases a.element.size parts with ⟨bytes, hrun⟩ | hslots
  · have hsize := Image.size_of_merge (a.places_packed block) (Image.merge?_of_slots block hlen hrun)
    obtain ⟨hrewrites, hvalues⟩ := rewrites_slots he he.rewrites_run himages hrun hs (by omega)
    rw [hrun, writeImage]
    refine (does_write hrewrites hs (by omega) ?_).mono fun _ s' _ _ h => by rw [h, hvalues]
    have hrow := hD.overlayRow (fun l hl => List.eq_of_mem_replicate hl ▸ he)
      (rowValues rootSize s.file (a.places block))
    rw [Layout.overlayRow_replicate (himages.length_eq ▸ hlen) (by simp)] at hrow
    show D.rel _ (rowValues rootSize (s.file.overwritten block bytes) (a.places block))
    rwa [hvalues]
  · rw [hslots, writeImage, writeSlots_eq own (Nat.lt_of_le_of_lt hle hfit) (by omega),
      List.drop_zero]
    refine (does_writeRow (a.forall_places he block) (a.forall_places hwrites block)
      (a.layouts_places block ▸ himages) hs
      (fun p hp => Nat.le_trans (places_le own p hp) hle) (a.layouts_places block ▸ hD)).mono
        fun _ s' _ _ h => ?_
    rw [h, a.layouts_places]
    exact Layout.overlayRow_replicate (himages.length_eq ▸ hlen) (by simp)

/-- The images of the blocks of a chained array. -/
def blockImages (a : ArrayLayout) (parts : List Image) : List Image :=
  (Image.chunks a.capacity a.capacity_pos parts).map (.ofSlots a.element.size)

theorem blockImages_nil (a : ArrayLayout) : a.blockImages [] = [] := by
  rw [blockImages, Image.chunks_nil, List.map_nil]

theorem blockImages_of_ne_nil {parts : List Image} (hne : parts ≠ []) :
    a.blockImages parts = .ofSlots a.element.size (parts.take a.capacity) ::
      a.blockImages (parts.drop a.capacity) := by
  rw [blockImages, Image.chunks_of_ne_nil hne, List.map_cons]
  rfl

/-- Overlaying an array block by block. -/
theorem overlayItems_lengthen {items first rest : List Value} {blocks : Nat}
    (hext : a.extent = .chained) (hfirst : first.length = a.capacity)
    (hrest : rest.length = blocks * a.capacity) :
    overlayItems a.element.overlay (items.take a.capacity) first ++
        overlayItems a.element.overlay (items.drop a.capacity)
          (a.lengthen (items.drop a.capacity).length rest) =
      overlayItems a.element.overlay items (a.lengthen items.length (first ++ rest)) := by
  rcases Nat.lt_or_ge a.capacity items.length with hlt | hge
  · have hcount : items.length = (items.drop a.capacity).length + a.capacity := by
      rw [List.length_drop]
      omega
    rw [hcount, lengthen_append hext hfirst]
    have hlen : (items.take a.capacity).length = first.length := by
      rw [List.length_take, hfirst]
      omega
    have h : overlayItems a.element.overlay (items.take a.capacity ++ items.drop a.capacity)
        (first ++ a.lengthen (items.drop a.capacity).length rest) = _ := overlayItems_append hlen
    rw [List.take_append_drop] at h
    exact h.symm
  · rw [List.drop_eq_nil_of_le hge, List.take_of_length_le hge, overlayItems_nil]
    have hall : (first ++ rest).length = (blocks + 1) * a.capacity := by
      rw [List.length_append, hfirst, hrest, Nat.add_mul, Nat.one_mul, Nat.add_comm]
    rw [List.length_nil, lengthen_of_le hrest (Nat.zero_le _),
      lengthen_of_le hall (by simp; omega)]
    exact (overlayItems_append_of_le (by omega)).symm

/-- The images of blocks overlay the elements of a chain, which gets long enough for them. -/
theorem does_writeBlocks {D : Drift (List Value)} (own : a.WellFormed) (he : a.element.WellFormed)
    (hext : a.extent = .chained) (hwrites : a.element.Writes δ rootSize) {items : List Value}
    {parts : List Image} {m : Nat}
    (himages : RowImages (List.replicate m a.element) items parts)
    (hs : Sound rootSize s.file ((a.part rootSize block).cells s.file))
    (hle : block + a.size ≤ s.file.size) (hD : D.Admits (items.map (a.element, ·)))
    (hgrows : a.Grows items.length D) :
    Does rootSize (a.part rootSize block) D E
      (writeBlocks rootSize a block true (a.blockImages parts)) s fun _ s' =>
        a.values rootSize s'.file block = overlayItems a.element.overlay items
          (a.lengthen items.length (a.values rootSize s.file block)) := by
  induction h : items.length using Nat.strongRecOn generalizing s block items parts D with
  | ind n ih =>
    subst h
    have hlength := himages.length_eq
    by_cases hne : parts = []
    · subst hne
      obtain rfl := List.eq_nil_of_length_eq_zero hlength.symm
      rw [blockImages_nil, writeBlocks]
      refine Does.pure hs ?_
      rw [overlayItems_nil, List.length_nil,
        lengthen_of_le (a.length_values ..) (Nat.zero_le _)]
    have hpos : 0 < parts.length := List.length_pos_iff.mpr hne
    have hcap := a.capacity_pos
    rw [blockImages_of_ne_nil hne, writeBlocks_true]
    obtain ⟨ctx, hole⟩ := hole_block he hs
    have hfirst := (himages.take a.capacity).slice (n := a.capacity) (List.length_take_le ..)
    have hD₁ := (List.map_take .. ▸ hD.take a.capacity).before (a.rest rootSize s.file block)
    refine Does.bind (Does.hole hole hs (fun _ h => h) fun hs =>
      does_writeBlock own he hwrites hfirst hs hle hD₁) fun _ s₁ hfit₁ hp₁ h₁ => ?_
    obtain ⟨-, hfill, hvalues₁⟩ := h₁
    have hrest : a.rest rootSize s₁.file block = a.rest rootSize s.file block :=
      List.append_cancel_left ((a.values_eq rootSize s₁.file block).symm.trans hfill)
    have hle₁ := Nat.le_trans hle hp₁.evolves.size_le
    obtain ⟨blocks, hblocks⟩ := a.length_rest rootSize s.file block
    -- The first block is done; what is left goes behind it.
    suffices hgoal : Does rootSize (a.part rootSize block) D E
        (writeBlocks rootSize a block false (a.blockImages (parts.drop a.capacity))) s₁ fun _ s' =>
          a.values rootSize s'.file block = rowValues rootSize s₁.file (a.places block) ++
            overlayItems a.element.overlay (items.drop a.capacity)
              (a.lengthen (items.drop a.capacity).length (a.rest rootSize s.file block)) by
      refine hgoal.mono fun _ s' _ _ h => h.trans ?_
      rw [hvalues₁, overlayItems_lengthen hext (by simp) hblocks, ← a.values_eq]
    have hdrop := (himages.drop a.capacity).length_eq
    by_cases hmore : parts.drop a.capacity = []
    · rw [hmore] at hdrop
      rw [hmore, blockImages_nil, writeBlocks, List.eq_nil_of_length_eq_zero hdrop.symm]
      refine Does.pure hp₁.sound ?_
      rw [overlayItems_nil, List.length_nil, lengthen_of_le hblocks (Nat.zero_le _)]
      exact hfill
    · have hpos : 0 < (items.drop a.capacity).length := hdrop ▸ List.length_pos_iff.mpr hmore
      rw [blockImages_of_ne_nil hmore, writeBlocks_false, ← blockImages_of_ne_nil hmore]
      have hlt : a.capacity < items.length := Nat.lt_of_sub_pos (List.length_drop ▸ hpos)
      refine Does.bind (Chain.does_followOrExtend own he hext hp₁.sound hle₁ hfit₁ hgrows hlt)
        fun next s₂ _ hp₂ h₂ => ?_
      obtain ⟨hnext, hrow, hbehind⟩ := h₂
      have hleads := (File.next?_eq_some_iff.mp hnext).2.2
      have hrow₂ : (rowValues rootSize s₂.file (a.places block)).length = a.capacity := by simp
      have hD₂ := hD.behind (rowValues rootSize s₂.file (a.places block))
      rw [hrow₂, ← List.map_drop] at hD₂
      have hgrows₂ := hgrows.behind hrow₂
      rw [← List.length_drop] at hgrows₂
      refine (Does.hole (hole_next he hp₂.sound hnext) hp₂.sound (fun _ h => h) fun hs =>
        ih _ (by rw [List.length_drop]; omega) (himages.drop a.capacity) hs hleads.2.2 hD₂
          hgrows₂ rfl).mono fun _ s' _ _ h => ?_
      obtain ⟨-, hfill', hvalues⟩ := h
      refine hfill'.trans ?_
      show _ ++ a.values rootSize s'.file next = _
      rw [hvalues, hrow, hbehind _ hpos, hrest]

end ArrayLayout

/-! ## Images -/

/-- Writing a run overlays its place. -/
theorem does_writeRun {l : Layout} {offset : Nat} {v : Value} {bytes : ByteArray}
    (hw : l.WellFormed) (h : l.image v = .ok (.run bytes))
    (hs : Sound rootSize s.file (l.cells rootSize s.file offset))
    (hle : offset + l.size ≤ s.file.size) :
    Does rootSize (l.part rootSize offset) (l.writing v) E
      (writeImage rootSize l offset (.run bytes)) s fun _ s' =>
        l.value rootSize s'.file offset = l.overlay v (l.value rootSize s.file offset) := by
  have hsize := Layout.size_of_run hw h
  obtain ⟨hrewrites, hvalue⟩ := hw.rewrites_run s.file offset v bytes h hs hle
  rw [writeImage]
  refine (does_write hrewrites hs (by omega) ?_).mono fun _ s' _ _ h => by rw [h, hvalue]
  show (l.writing v).rel _ (l.value rootSize (s.file.overwritten offset bytes) offset)
  exact hvalue ▸ Layout.writing_overlay hw v _

/-- Writing the image of a value overlays the place that it is written to. -/
theorem does_writeImage {l : Layout} (hw : l.WellFormed) : l.Writes δ rootSize := by
  induction hw with
  | scalar kind =>
    intro E s offset v image h hs hle
    obtain ⟨bytes, -, rfl⟩ := Layout.image_scalar_eq_ok_iff.mp h
    exact does_writeRun (.scalar kind) h hs hle
  | @record r own fields ih =>
    intro E s offset v image h hs hle
    obtain ⟨supplied, vs, parts, rfl, hvs, himages, rfl⟩ := Layout.image_record_ok h
    split at h
    · exact does_writeRun (.record own fields) h hs hle
    refine Does.of_fits fun hfit => ?_
    have hlayouts := r.layouts_places offset
    have hplace : ∀ p ∈ r.places offset, p.2 + p.1.size ≤ s.file.size := fun p hp =>
      Nat.le_trans ((own.places_packed offset).le_of_mem hp).2 hle
    simp only [writeImage]
    rw [own.writeFields_eq (Nat.lt_of_le_of_lt hle hfit)]
    refine (Does.hole (r.hole rootSize s.file offset) hs (fun _ h => h) fun hs =>
      does_writeRow (r.forall_places fields offset) (r.forall_places ih offset) (hlayouts ▸ himages)
        hs hplace (hlayouts ▸ r.admits_writing hvs)).mono fun _ s' _ _ h => ?_
    obtain ⟨-, hfill, hvalues⟩ := h
    refine hfill.trans ?_
    show Value.record (List.zip _ (rowValues rootSize s'.file (r.places offset))) = _
    rw [hvalues, hlayouts, Layout.value_record,
      Layout.overlay_record hvs (by simp)]
  | @array a own element ih =>
    intro E s offset v image h hs hle
    obtain ⟨items, parts, rfl, hlen, himages, rfl⟩ := Layout.image_array_ok h
    rw [Layout.value_array, Layout.overlay_array]
    cases hext : a.extent with
    | fixed =>
      obtain ⟨ctx, hblock⟩ := ArrayLayout.hole_block element hs
      refine (Does.hole ((a.hole offset).trans hblock) hs (fun _ h => h) fun hs =>
        ArrayLayout.does_writeBlock own element ih (himages.slice (hlen hext)) hs hle
          ((a.admits_writing items).before _)).mono fun _ s' _ _ h => ?_
      obtain ⟨-, hfill, hvalues⟩ := h
      refine hfill.trans ?_
      show Value.array (rowValues rootSize s'.file (a.places offset) ++ _) = _
      rw [hvalues, ArrayLayout.lengthen_of_fixed hext, ArrayLayout.values_eq, ArrayLayout.rest,
        File.next?_of_fixed hext, List.append_nil, List.append_nil]
    | chained =>
      simp only [writeImage]
      refine (Does.hole (a.hole offset) hs (fun _ h => h) fun hs =>
        ArrayLayout.does_writeBlocks own element hext ih himages hs hle (a.admits_writing items)
          (ArrayLayout.grows_writing hext items)).mono fun _ s' _ _ h => ?_
      obtain ⟨-, hfill, hvalues⟩ := h
      exact hfill.trans (congrArg Value.array hvalues)

end RecordFile
