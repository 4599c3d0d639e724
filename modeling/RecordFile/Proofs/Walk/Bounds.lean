import RecordFile.Proofs.Image
import RecordFile.Proofs.Walk.Reading
import RecordFile.Proofs.Walk.Writing

/-!
# Walks stay inside the file

Whatever a file holds, a walk that makes chains longer ends at a place that lies in the file, and
writing an image does not reach past its place. Only the file can be to blame for an error: no read
or write is out of bounds, and writing where there are no chains does not fail at all. A walk breaks
off only once the file has become longer than offsets can tell. Links may lead anywhere and blocks
may overlap; that the file never gets shorter is all that carries a bound from one step to the next.
-/

namespace RecordFile

open Session

variable {δ : Type} [Device δ] [LawfulDevice δ] {rootSize : Nat} {s : Session δ}

/-- `m` ends in `Q`, which speaks of the size of the file, or halts in `E`, or breaks off because the
length of the file is no word any more, or because the device failed. -/
def Within {α : Type} (m : Action (Session δ) α) (s : Session δ) (Q : α → Nat → Prop)
    (E : Halt → Prop) : Prop :=
  WP m s (fun a s' => s.file.size ≤ s'.file.size ∧ Q a s'.file.size)
    fun e s' => LawfulDevice.infallible δ → E e ∨ e = .abort ∧ ¬ s'.Fits

namespace Within

variable {α β : Type} {Q Q' : α → Nat → Prop} {E E' : Halt → Prop}

theorem mono {m : Action (Session δ) α} (h : Within m s Q E) (hQ : ∀ a n, Q a n → Q' a n)
    (hE : ∀ e, E e → E' e) : Within m s Q' E' :=
  WP.mono h (fun a _ h => ⟨h.1, hQ a _ h.2⟩) fun e _ h hinf => (h hinf).imp_left (hE e)

theorem pure {a : α} (h : Q a s.file.size) : Within (pure a) s Q E :=
  ⟨Nat.le_refl _, h⟩

theorem fail {e : Error} (h : E (.error e)) : Within (fail e) s Q E := fun _ => .inl h

/-- A run breaks off at an offset inside the file that is past the words. -/
theorem abort {n : Nat} (hle : n ≤ s.file.size) (hlimit : wordLimit ≤ n) :
    Within (RecordFile.abort : Action (Session δ) α) s Q E :=
  fun _ => .inr ⟨rfl, not_fits hle hlimit⟩

theorem bind {m : Action (Session δ) β} {f : β → Action (Session δ) α} {P : β → Nat → Prop}
    (h : Within m s P E)
    (hf : ∀ b s', s.file.size ≤ s'.file.size → P b s'.file.size → Within (f b) s' Q E) :
    Within (m >>= f) s Q E := by
  refine WP.bind_iff.mpr (WP.mono h (fun b s' hb => ?_) fun _ _ h => h)
  exact WP.mono (hf b s' hb.1 hb.2) (fun _ _ h => ⟨Nat.le_trans hb.1 h.1, h.2⟩) fun _ _ h => h

/-- What a run ends in that leaves a file whose length is a word. -/
theorem wp {m : Action (Session δ) α} (h : Within m s Q E) (hfit : (endState m s).Fits) :
    WP m s (fun a s' => s.file.size ≤ s'.file.size ∧ Q a s'.file.size)
      fun e _ => LawfulDevice.infallible δ → E e :=
  ((WP.of_endState hfit).and h).mono (fun _ _ h => h.2)
    fun _ _ h hinf => (h.2 hinf).resolve_right fun hout => hout.2 h.1

end Within

/-! ## Walking -/

/-- The offset of a field. -/
theorem within_fieldOffset {offset stop : Nat} {f : FieldLayout} {E : Halt → Prop}
    (hle : offset + f.offset ≤ stop) (hstop : stop ≤ s.file.size) :
    Within (orAbort (checkedAdd offset f.offset)) s (fun start _ => start = offset + f.offset) E := by
  rcases checkedAdd_cases offset f.offset with hsome | ⟨hnone, hlimit⟩
  · rw [hsome]
    exact .pure rfl
  · rw [hnone]
    exact .abort (Nat.le_trans hle hstop) hlimit

namespace Chain

variable {a : ArrayLayout} {block : Nat}

/-- The offset of a slot. -/
theorem within_slotOffset (own : a.WellFormed) {index : Nat} {E : Halt → Prop}
    (hindex : index < a.capacity) (hle : block + a.size ≤ s.file.size) :
    Within (orAbort (a.slotOffset? block index)) s
      (fun offset n => offset = block + index * a.element.size ∧ offset + a.element.size ≤ n) E := by
  have := a.slot_le hindex
  have := own.slotsSize_le
  rcases a.slotOffset?_cases hindex block with hsome | ⟨hnone, hlimit⟩
  · rw [hsome]
    exact .pure ⟨rfl, by omega⟩
  · rw [hnone]
    exact .abort (by omega) hlimit

/-- The next block lies in the file. -/
theorem within_followOrExtend (own : a.WellFormed) (hext : a.extent = .chained)
    (hle : block + a.size ≤ s.file.size) :
    Within (followOrExtend rootSize a block) s (fun next n => next + a.size ≤ n)
      Halt.IsCorruption := by
  have hlink := a.linkOffset_le own hext hle
  rcases Nat.lt_or_ge (a.linkOffset block) wordLimit with hlt | hlimit
  swap
  · unfold Within WP
    rw [followOrExtend_of_le hlimit]
    exact fun _ => .inr ⟨rfl, not_fits (Nat.le_trans (Nat.le_add_right ..) hlink) hlimit⟩
  refine Within.bind (P := fun found n => ∀ next ∈ found, next.val + a.size ≤ n) ?_ ?_
  · refine (wp_follow hext hlt hlink).mono (fun found s' h => ?_)
      fun e s' h hinf => .inl ((h.2 hinf).2.2 ▸ File.isCorruption_badLink ..)
    obtain ⟨hsame, hfound, -⟩ := h
    refine ⟨hsame.sizeLe, fun next hmem => ?_⟩
    rw [Option.mem_def.mp hmem] at hfound
    rw [hsame.file_eq]
    exact (File.next?_eq_some_iff.mp hfound.symm).2.2.2.2
  · intro found s₁ hsize hfound
    cases found with
    | some next => exact .pure (hfound next rfl)
    | none =>
      have hlink₁ := Nat.le_trans hlink hsize
      refine (wp_extend (own.size_pos hext) hlt hlink₁).mono (fun next s' h => ?_)
        fun e s' h hinf => ?_
      · obtain ⟨rfl, hfile, -⟩ := h
        have hgrown := (congrArg File.size hfile).trans (File.size_linked hlink₁)
        exact ⟨by omega, Nat.le_of_eq hgrown.symm⟩
      · obtain ⟨_, hloses⟩ := h
        exact absurd hinf hloses.failed

/-- A walk along a chain ends inside the file. -/
theorem within_locateFrom (own : a.WellFormed) (hext : a.extent = .chained)
    (hle : block + a.size ≤ s.file.size) (index remaining allocated : Nat) :
    Within (locateFrom rootSize .allowed a index block remaining allocated) s
      (fun offset n => offset + a.element.size ≤ n) Halt.IsCorruption := by
  induction remaining using Nat.strongRecOn generalizing s block allocated with
  | ind remaining ih =>
    have hpos := a.capacity_pos
    rw [locateFrom]
    split
    · refine Within.bind (P := fun found n => ∃ next, found = some next ∧ next + a.size ≤ n) ?_ ?_
      · refine Within.bind (within_followOrExtend own hext hle) fun next s' _ h => ?_
        exact .pure ⟨next, rfl, h⟩
      · rintro _ s₁ - ⟨next, rfl, hnext⟩
        exact ih _ (by omega) hnext _
    · rename_i hcap
      exact (within_slotOffset own (Nat.lt_of_not_le hcap) hle).mono (fun _ _ h => h.2) fun _ h => h

/-- The place of an element, for an index that the array accepts, lies in the file. -/
theorem within_locate (own : a.WellFormed) (hle : block + a.size ≤ s.file.size) {index : Nat}
    (hindex : ¬ (a.extent = .fixed ∧ a.capacity ≤ index)) :
    Within (locate rootSize .allowed a block index) s
      (fun offset n => offset + a.element.size ≤ n) Halt.IsCorruption := by
  cases hext : a.extent with
  | fixed =>
    have hlt : index < a.capacity := Nat.lt_of_not_le fun h => hindex ⟨hext, h⟩
    rw [locate, hext]
    simp only [if_neg (Nat.not_le_of_lt hlt)]
    exact (within_slotOffset own hlt hle).mono (fun _ _ h => h.2) fun _ h => h
  | chained =>
    rw [locate, hext]
    exact within_locateFrom own hext hle index index a.capacity

end Chain

/-- A walk along a path ends at a place inside the file, of the type that the path resolves to. -/
theorem within_traceFrom {path : Path} {position offset : Nat} {l : Layout} {steps : List UInt64}
    (hw : l.WellFormed) (hle : offset + l.size ≤ s.file.size) :
    Within (traceFrom rootSize .allowed path position l offset steps) s
      (fun offset' n => ∃ l', l.descend path position steps = .ok l' ∧ l'.WellFormed ∧
        offset' + l'.size ≤ n)
      fun e => e.IsError ∧ ∀ l', l.descend path position steps = .ok l' → e.IsCorruption := by
  induction steps generalizing s position offset l with
  | nil =>
    rw [traceFrom]
    exact .pure ⟨l, rfl, hw, hle⟩
  | cons step rest ih =>
    cases l with
    | scalar kind =>
      rw [traceFrom]
      exact .fail ⟨⟨_, rfl⟩, fun l' hl' => absurd hl' (Layout.descend_scalar kind l')⟩
    | record r =>
      rw [traceFrom]
      cases hfield : r.fields[step.toNat]? with
      | none =>
        exact .fail ⟨⟨_, rfl⟩, fun l' hl' => absurd hl' (Layout.descend_record_of_none hfield l')⟩
      | some field =>
        have hmem := List.mem_of_getElem?
          (@Layout.children_record_of_some rootSize s.file _ _ _ hfield offset)
        have hin := Layout.children_le hw hle _ hmem
        rw [Layout.descend_record_of_some hfield]
        refine Within.bind (within_fieldOffset (Nat.le_add_right ..) hin) fun start s' hsize h => ?_
        subst h
        exact ih (Layout.children_wellFormed hw _ hmem) (Nat.le_trans hin hsize)
    | array a =>
      obtain ⟨own, he⟩ := hw.of_array
      rw [traceFrom]
      by_cases hindex : a.extent = .fixed ∧ a.capacity ≤ step.toNat
      · refine Within.bind (P := fun _ _ => False) ?_ fun _ _ _ h => h.elim
        rw [Chain.locate_of_le hindex]
        exact .fail ⟨⟨_, rfl⟩, fun l' hl' => absurd hl' (Layout.descend_array_of_le hindex l')⟩
      · rw [Layout.descend_array hindex]
        refine Within.bind ((Chain.within_locate own hle hindex).mono (fun _ _ h => h)
          fun e he => ⟨he.isError, fun _ _ => he⟩) fun offset' s' _ h => ?_
        exact ih he h

/-! ## Writing -/

/-- No chained array occurs in the type. -/
def Layout.Chainless (l : Layout) : Prop := l.Every (fun _ => True) (·.extent = .fixed)

/-- Writing an image of a type does not reach past its place, and fails only where a chained array
occurs in the type. -/
def Layout.WritesWithin (δ : Type) [Device δ] [LawfulDevice δ] (rootSize : Nat) (l : Layout) :
    Prop :=
  ∀ (s : Session δ) (offset : Nat) (v : Value) (image : Image), l.image v = .ok image →
    offset + l.size ≤ s.file.size →
    Within (writeImage rootSize l offset image) s (fun _ _ => True)
      fun e => ¬ l.Chainless ∧ e.IsCorruption

theorem within_write {offset : Nat} {data : ByteArray} {E : Halt → Prop}
    (hle : offset + data.size ≤ s.file.size) :
    Within (Session.write offset data) s (fun _ _ => True) E := by
  refine ((wp_write s offset data).and size_of_write).mono (fun _ s' h => ?_) fun _ s' h hinf => ?_
  · exact ⟨Nat.le_of_eq h.2.symm, trivial⟩
  · exact absurd (h.1.2.2.2 hinf) (Nat.not_lt_of_le hle)

/-- Writing to the fields of a record that ends at `stop`. -/
theorem within_writeFields {offset stop : Nat} {fields : List FieldLayout} {vs : List Value}
    {parts : List Image} (hwrites : ∀ f ∈ fields, f.layout.WritesWithin δ rootSize)
    (himages : RowImages (fields.map (·.layout)) vs parts)
    (hle : ∀ f ∈ fields, offset + f.offset + f.layout.size ≤ stop) (hstop : stop ≤ s.file.size) :
    Within (writeFields rootSize offset fields parts) s (fun _ _ => True)
      fun e => ¬ (∀ f ∈ fields, f.layout.Chainless) ∧ e.IsCorruption := by
  induction fields generalizing s vs parts with
  | nil =>
    rw [writeFields]
    · exact .pure trivial
    · simp
  | cons f fields ih =>
    rw [List.map_cons] at himages
    cases himages with
    | nil => exact .pure trivial
    | @cons _ _ v vs part parts hv himages =>
      obtain ⟨hwrite, hwrites⟩ := List.forall_mem_cons.mp hwrites
      obtain ⟨hle₁, hle⟩ := List.forall_mem_cons.mp hle
      rw [writeFields]
      refine Within.bind (within_fieldOffset (Nat.le_trans (Nat.le_add_right ..) hle₁) hstop)
        fun start s₁ hsize₁ h => ?_
      subst h
      have hin := Nat.le_trans hle₁ (Nat.le_trans hstop hsize₁)
      refine Within.bind ((hwrite s₁ _ v part hv hin).mono (fun _ _ h => h) fun e h => ?_)
        fun _ s₂ hsize₂ _ => ?_
      · exact ⟨fun hall => h.1 (hall f List.mem_cons_self), h.2⟩
      · refine (ih hwrites himages hle (Nat.le_trans hstop (Nat.le_trans hsize₁ hsize₂))).mono
          (fun _ _ h => h) fun e h => ⟨fun hall => h.1 fun g hg => ?_, h.2⟩
        exact hall g (List.mem_cons_of_mem _ hg)

namespace ArrayLayout

variable {a : ArrayLayout} {block : Nat}

/-- Writing to the slots of a block from one on. -/
theorem within_writeSlots (own : a.WellFormed) (hwrites : a.element.WritesWithin δ rootSize)
    {m index : Nat} {vs : List Value} {parts : List Image}
    (himages : RowImages (List.replicate m a.element) vs parts)
    (hcount : index + parts.length ≤ a.capacity) (hle : block + a.size ≤ s.file.size) :
    Within (writeSlots rootSize a block index parts) s (fun _ _ => True)
      fun e => ¬ a.element.Chainless ∧ e.IsCorruption := by
  induction parts generalizing s m index vs with
  | nil =>
    rw [writeSlots]
    exact .pure trivial
  | cons part parts ih =>
    rw [List.length_cons] at hcount
    generalize hrow : List.replicate m a.element = row at himages
    cases himages with | @cons l row v vs _ _ hv himages =>
    obtain _ | m := m
    · cases hrow
    obtain ⟨rfl, rfl⟩ : a.element = l ∧ List.replicate m a.element = row := by
      simpa [List.replicate_succ] using hrow
    rw [writeSlots]
    refine Within.bind (Chain.within_slotOffset own (by omega) hle) fun offset s₁ hsize₁ h => ?_
    refine Within.bind (hwrites s₁ offset v part hv h.2) fun _ s₂ hsize₂ _ => ?_
    exact ih himages (by omega) (Nat.le_trans hle (Nat.le_trans hsize₁ hsize₂))

theorem within_writeBlock (own : a.WellFormed) (hwrites : a.element.WritesWithin δ rootSize)
    {vs : List Value} {parts : List Image}
    (himages : RowImages (List.replicate a.capacity a.element) vs parts)
    (hle : block + a.size ≤ s.file.size) :
    Within (writeImage rootSize (.array a) block (.ofSlots a.element.size parts)) s
      (fun _ _ => True) fun e => ¬ a.element.Chainless ∧ e.IsCorruption := by
  have hslots := own.slotsSize_le
  have hlen := himages.length_le
  rw [List.length_replicate] at hlen
  rcases Image.ofSlots_cases a.element.size parts with ⟨bytes, hrun⟩ | hslots
  · have := Image.size_of_merge (a.places_packed block) (Image.merge?_of_slots block hlen hrun)
    rw [hrun, writeImage]
    exact within_write (by omega)
  · rw [hslots, writeImage]
    exact within_writeSlots own hwrites himages (by omega) hle

theorem within_writeBlocks (own : a.WellFormed) (hext : a.extent = .chained)
    (hwrites : a.element.WritesWithin δ rootSize) {items : List Value} {parts : List Image}
    {m : Nat} (himages : RowImages (List.replicate m a.element) items parts)
    (hle : block + a.size ≤ s.file.size) :
    Within (writeBlocks rootSize a block true (a.blockImages parts)) s (fun _ _ => True)
      Halt.IsCorruption := by
  induction h : parts.length using Nat.strongRecOn generalizing s block items parts with
  | ind n ih =>
    subst h
    have hcap := a.capacity_pos
    by_cases hne : parts = []
    · rw [hne, blockImages_nil, writeBlocks]
      exact .pure trivial
    have hpos : 0 < parts.length := List.length_pos_iff.mpr hne
    have hfirst := (himages.take a.capacity).slice (n := a.capacity) (List.length_take_le ..)
    rw [blockImages_of_ne_nil hne, writeBlocks_true]
    refine Within.bind ((within_writeBlock own hwrites hfirst hle).mono (fun _ _ h => h)
      fun _ h => h.2) fun _ s₁ hsize _ => ?_
    by_cases hmore : parts.drop a.capacity = []
    · rw [hmore, blockImages_nil, writeBlocks]
      exact .pure trivial
    · rw [blockImages_of_ne_nil hmore, writeBlocks_false, ← blockImages_of_ne_nil hmore]
      refine Within.bind (Chain.within_followOrExtend own hext (Nat.le_trans hle hsize))
        fun next s₂ _ hnext => ?_
      exact ih _ (by rw [List.length_drop]; omega) (himages.drop a.capacity) hnext rfl

end ArrayLayout

/-- Writing the image of a value stays inside the place that it is written to. -/
theorem within_writeImage {l : Layout} (hw : l.WellFormed) : l.WritesWithin δ rootSize := by
  induction hw with
  | scalar kind =>
    intro s offset v image h hle
    obtain ⟨bytes, -, rfl⟩ := Layout.image_scalar_eq_ok_iff.mp h
    have := Layout.size_of_run (.scalar kind) h
    exact within_write (by omega)
  | @record r own fields ih =>
    intro s offset v image h hle
    obtain ⟨supplied, vs, parts, rfl, -, himages, rfl⟩ := Layout.image_record_ok h
    split at h
    · have := Layout.size_of_run (.record own fields) h
      exact within_write (by omega)
    refine (within_writeFields ih himages (fun f hf => ?_) hle).mono (fun _ _ h => h) fun e h => ?_
    · rw [Nat.add_assoc]
      exact Nat.add_le_add_left (own.packed.le_of_mem hf).2 offset
    · refine ⟨fun hchainless => h.1 ?_, h.2⟩
      cases hchainless
      assumption
  | @array a own element ih =>
    intro s offset v image h hle
    obtain ⟨items, parts, rfl, hlen, himages, rfl⟩ := Layout.image_array_ok h
    cases hext : a.extent with
    | fixed =>
      refine (ArrayLayout.within_writeBlock own ih (himages.slice (hlen hext)) hle).mono
        (fun _ _ h => h) fun e h => ⟨fun hchainless => h.1 ?_, h.2⟩
      cases hchainless
      assumption
    | chained =>
      refine (ArrayLayout.within_writeBlocks own hext ih himages hle).mono (fun _ _ h => h)
        fun e h => ⟨fun hchainless => ?_, h⟩
      cases hchainless with | array hfixed _ =>
      rw [hext] at hfixed
      cases hfixed

end RecordFile
