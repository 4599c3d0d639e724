import RecordFile.Proofs.Walk.Reading

/-!
# Walks that decode

What decoding finds in a file, whatever the file holds: it gives the value that `Layout.value` says,
and then all cells of the part are in order, or it halts because one of them is not (`Damaged`).

It reads the blocks of chains one by one, each where a link leads to. A `Trail` tells where a device
has been read, and `Trails R s m trail Q E` says of a walk that only reads what `Reads` says of it and
that it leaves this trail. Decoding follows each link of the part that is not zero, in the order of
the cells, and reads nothing else (`follows`).
-/

namespace RecordFile

open Session

/-- Where the links among the cells lead to. -/
def follows (cells : List Cell) : List Nat := (cells.map Cell.target).filter (· ≠ 0)

theorem follows_append (cells cells' : List Cell) :
    follows (cells ++ cells') = follows cells ++ follows cells' := by
  simp [follows]

theorem follows_link {a : ArrayLayout} {block next : Nat} (hne : next ≠ 0) :
    follows [.link a block next] = [next] := by
  simp [follows, Cell.target, hne]

theorem follows_of_unlinked {cells : List Cell} (h : ∀ c ∈ cells, c.target = 0) :
    follows cells = [] := by
  simpa [follows] using h

section

variable {δ : Type} [Device δ] [LawfulDevice δ]

/-- `R trail s s'` says that nothing was written between `s` and `s'`, and tells of the offsets at
which was read, in their order. -/
class Trail (R : List Nat → Session δ → Session δ → Prop) : Prop where
  same {trail : List Nat} {s s' : Session δ} : R trail s s' → Same s s'
  nil (s : Session δ) : R [] s s
  append {trail more : List Nat} {s s' s'' : Session δ} :
    R trail s s' → R more s' s'' → R (trail ++ more) s s''
  read (s : Session δ) (offset length : Nat) :
    WP (Session.read offset length) s (fun _ s' => R [offset] s s') fun _ _ => True
  size (s : Session δ) : WP Session.size s (fun _ s' => R [] s s') fun _ _ => True

/-- It need not be told where was read. -/
instance : Trail (δ := δ) fun _ => Same where
  same h := h
  nil := .refl
  append := .trans
  read s offset length := (wp_read s offset length).mono (fun _ _ h => h.1) fun _ _ _ => trivial
  size s := (wp_size s).mono (fun _ _ h => h.1) fun _ _ _ => trivial

/-- `m` only reads, at the offsets of the trail: it gives a result in `Q` or halts in `E`, or because
the device failed. -/
def Trails {α : Type} (R : List Nat → Session δ → Session δ → Prop) (s : Session δ)
    (m : Action (Session δ) α) (trail : List Nat) (Q : α → Prop) (E : Halt → Prop) : Prop :=
  ∀ s₁, Same s s₁ → WP m s₁ (fun a s' => R trail s₁ s' ∧ Q a)
    fun e s' => Same s s' ∧ (LawfulDevice.infallible δ → E e)

namespace Trails

variable {α β : Type} {R : List Nat → Session δ → Session δ → Prop} {s : Session δ}
  {trail more : List Nat} {Q Q' : α → Prop} {E E' : Halt → Prop}

theorem mono {m : Action (Session δ) α} (h : Trails R s m trail Q E) (hQ : ∀ a, Q a → Q' a)
    (hE : ∀ e, E e → E' e) : Trails R s m trail Q' E' := fun s₁ hs₁ =>
  (h s₁ hs₁).mono (fun a _ h => ⟨h.1, hQ a h.2⟩) fun e _ h => ⟨h.1, fun hinf => hE e (h.2 hinf)⟩

theorem reads {m : Action (Session δ) α} (h : Trails (fun _ => Same) s m trail Q E) :
    Reads s m Q E := fun s₁ hs₁ =>
  (h s₁ hs₁).mono (fun _ _ h => ⟨hs₁.trans h.1, h.2⟩) fun _ _ h => h

variable [Trail R]

theorem pure {a : α} (h : Q a) : Trails R s (pure a) [] Q E := fun s₁ _ => ⟨Trail.nil s₁, h⟩

theorem bind {m : Action (Session δ) β} {f : β → Action (Session δ) α} {P : β → Prop}
    (h : Trails R s m trail P E) (hf : ∀ b, P b → Trails R s (f b) more Q E) :
    Trails R s (m >>= f) (trail ++ more) Q E := by
  intro s₁ hs₁
  rw [WP.bind_iff]
  refine (h s₁ hs₁).mono (fun b s₂ h => ?_) fun _ _ h => h
  exact (hf b h.2 s₂ (hs₁.trans (Trail.same h.1))).mono (fun _ _ h' => ⟨Trail.append h.1 h'.1, h'.2⟩)
    fun _ _ h => h

/-- The result is only put into another form. -/
theorem bind_pure {m : Action (Session δ) β} {f : β → α} (h : Trails R s m trail (fun b => Q (f b)) E) :
    Trails R s (m >>= fun b => Pure.pure (f b)) trail Q E :=
  List.append_nil trail ▸ h.bind fun _ hb => .pure hb

theorem size : Trails R s Session.size [] (· = s.file.size) E := by
  intro s₁ hs₁
  refine ((wp_size s₁).and (Trail.size (R := R) s₁)).mono (fun n s' h => ?_) fun _ s' h => ?_
  · exact ⟨h.2, h.1.2.trans (congrArg File.size hs₁.file_eq)⟩
  · exact ⟨hs₁.trans h.1.1, fun hinf => absurd hinf h.1.2⟩

/-- Where a link leads, if it may be followed. -/
theorem checkLink {rootSize block : Nat} {a : ArrayLayout} (link : UInt64) :
    Trails R s (Chain.checkLink rootSize a block link) []
      (fun next => next.val = link.toNat ∧ s.file.Leads rootSize a block link.toNat)
      fun e => ¬ s.file.Leads rootSize a block link.toNat ∧ e.IsCorruption := by
  rw [Chain.checkLink, ← List.nil_append []]
  refine .bind .size fun n hn => ?_
  subst hn
  split
  · exact .pure ⟨rfl, ‹_›⟩
  · exact fun s₁ hs₁ => ⟨hs₁, fun _ => ⟨‹_›, _, rfl⟩⟩

/-- Bytes that the file has. -/
theorem read {offset length : Nat} (hle : offset + length ≤ s.file.size) :
    Trails R s (Session.read offset length) [offset]
      (fun bytes => slice? s.file.bytes offset length = some bytes) E := by
  intro s₁ hs₁
  have h := (wp_read s₁ offset length).and (Trail.read (R := R) s₁ offset length)
  rw [hs₁.file_eq] at h
  exact h.mono (fun _ _ h => ⟨h.2, h.1.2⟩)
    fun _ _ h => ⟨hs₁.trans h.1.1, fun hinf => absurd (h.1.2 hinf) (Nat.not_lt_of_le hle)⟩

end Trails

end

/-! ## Slices -/

/-- A slice of a slice. -/
theorem slice?_slice? {bytes part : ByteArray} {start length i n : Nat}
    (h : slice? bytes start length = some part) (hle : i + n ≤ length) :
    slice? part i n = slice? bytes (start + i) n := by
  obtain ⟨hin, rfl⟩ := slice?_eq_some_iff.mp h
  have hsize : (bytes.extract start (start + length)).size = length := by
    rw [ByteArray.size_extract]
    omega
  rw [slice?, slice?, if_pos (by omega), if_pos (by omega), ByteArray.extract_extract]
  congr 1
  congr 1
  all_goals omega

/-- A slice of a file is there if the file is long enough. -/
theorem exists_slice? (f : File) (start length : Nat) (h : start + length ≤ f.size) :
    ∃ part, slice? f.bytes start length = some part :=
  ⟨_, slice?_eq_some_iff.mpr ⟨h, rfl⟩⟩

theorem number_of_slice? {f : File} {offset length : Nat} {bytes : ByteArray}
    (h : slice? f.bytes offset length = some bytes) :
    littleEndianValue bytes = f.number offset length := by
  obtain ⟨-, rfl⟩ := slice?_eq_some_iff.mp h
  rfl

/-- The link in the bytes of a block. -/
theorem ArrayLayout.WellFormed.link_of_slice? {a : ArrayLayout} (own : a.WellFormed)
    (hext : a.extent = .chained) {f : File} {block : Nat} {bytes : ByteArray}
    (h : slice? f.bytes block a.size = some bytes) :
    ∃ part link, slice? bytes a.slotsSize linkSize = some part ∧
      UInt64.ofNat (littleEndianValue part) = link ∧ link.toNat = f.link a block := by
  have hin := (slice?_eq_some_iff.mp h).1
  have hsize := own.size_of_chained hext
  obtain ⟨part, hpart⟩ := exists_slice? f (a.linkOffset block) linkSize
    (Nat.le_trans (a.linkOffset_le own hext (Nat.le_refl _)) hin)
  exact ⟨part, _, (slice?_slice? h (Nat.le_of_eq hsize.symm)).trans hpart, rfl,
    ofNat_littleEndianValue_of_slice? hpart⟩

/-! ## Decoding -/

section

variable {δ : Type} [Device δ] [LawfulDevice δ] {R : List Nat → Session δ → Session δ → Prop}
  [Trail R] {rootSize : Nat} {s : Session δ} {E : Halt → Prop}

/-- Slots are decoded one after the other. -/
theorem trails_readSlots {a : ArrayLayout} (own : a.WellFormed) {block : Nat} {bytes : ByteArray}
    {item : Nat → ByteArray → Action (Session δ) Value} (hfit : s.Fits)
    (hbytes : slice? s.file.bytes block a.size = some bytes)
    (hitem : ∀ p ∈ a.places block, ∀ slot, slice? s.file.bytes p.2 p.1.size = some slot →
      Trails R s (item p.2 slot) (follows (p.1.cells rootSize s.file p.2))
        (fun v => v = p.1.value rootSize s.file p.2 ∧
          ∀ c ∈ p.1.cells rootSize s.file p.2, c.Fits rootSize s.file) E)
    {left index : Nat} (hcount : index + left = a.capacity) (items : Array Value) :
    Trails R s (readSlots a item block bytes left index items)
      (follows (rowCells rootSize s.file ((a.places block).drop index)))
      (fun found =>
        found = items ++ (rowValues rootSize s.file ((a.places block).drop index)).toArray ∧
          ∀ c ∈ rowCells rootSize s.file ((a.places block).drop index), c.Fits rootSize s.file)
      E := by
  induction left generalizing index items with
  | zero =>
    rw [readSlots, List.drop_eq_nil_of_le (by simp; omega)]
    exact .pure ⟨by simp, by simp⟩
  | succ left ih =>
    have hindex : index < a.capacity := by omega
    have hplace := a.drop_places hindex block
    have hmem : (a.element, block + index * a.element.size) ∈ a.places block :=
      List.mem_of_mem_drop (hplace ▸ List.mem_cons_self ..)
    have hle : index * a.element.size + a.element.size ≤ a.size :=
      Nat.le_trans (a.slot_le hindex) own.slotsSize_le
    have hin := (slice?_eq_some_iff.mp hbytes).1
    obtain ⟨slot, hslot⟩ := exists_slice? s.file (block + index * a.element.size) a.element.size
      (by show _ ≤ s.file.bytes.size; omega)
    rw [readSlots, slice?_slice? hbytes hle, hslot,
      a.slotOffset?_eq own hindex (Nat.lt_of_le_of_lt hin hfit), orAbort_some_bind,
      orAbort_some_bind, hplace, rowCells_cons, follows_append]
    refine .bind (hitem _ hmem slot hslot) fun v hv => ?_
    obtain ⟨rfl, hcells⟩ := hv
    refine (ih (by omega) _).mono (fun vs hvs => ?_) fun _ h => h
    exact ⟨by rw [hvs.1]; simp, List.forall_mem_append.mpr ⟨hcells, hvs.2⟩⟩

/-- A chain ends at a block from which no link may be followed: either the link is zero, or it is not
in order. -/
theorem trails_lastLink {α : Type} {a : ArrayLayout} {block : Nat} (own : a.WellFormed)
    (hext : a.extent = .chained) (hin : block + a.size ≤ s.file.size)
    (hnext : s.file.next? rootSize a block = none) {link : UInt64}
    (hlink : link.toNat = s.file.link a block)
    (hE : ∀ e, Damaged rootSize s.file [.link a block (s.file.link a block)] e → E e) {items : α}
    {rest : Onward block → Action (Session δ) α} :
    Trails R s (if link = 0 then pure items else Chain.checkLink rootSize a block link >>= rest)
      (follows [.link a block (s.file.link a block)])
      (fun found => found = items ∧
        (Cell.link a block (s.file.link a block)).Fits rootSize s.file) E := by
  have hsize := own.size_of_chained hext
  split
  · rename_i hlinked
    rw [hlinked] at hlink
    have hzero : s.file.link a block = 0 := hlink.symm
    rw [follows_of_unlinked (by simpa [Cell.target] using hzero)]
    exact .pure ⟨rfl, hsize, hin, rfl, .inl hzero⟩
  · rename_i hne
    have hnot : ¬ (Cell.link a block (s.file.link a block)).Fits rootSize s.file := fun hfits => by
      rw [hfits.next?_eq hext fun hzero => hne (UInt64.toNat_inj.mp (hlink.trans hzero))] at hnext
      cases hnext
    rw [← List.nil_append (follows [_])]
    refine .bind ((Trails.checkLink link).mono (fun _ h => h) fun e h =>
      hE e ⟨h.2, _, List.mem_singleton_self _, hnot⟩) fun _ h => ?_
    exact absurd ⟨hsize, hin, rfl, .inr (hlink ▸ h.2)⟩ hnot

/-- Blocks are decoded one after the other, as long as their links may be followed. -/
theorem trails_readBlocks {a : ArrayLayout} (own : a.WellFormed) {block : Nat} {bytes : ByteArray}
    {item : Nat → ByteArray → Action (Session δ) Value}
    (hslots : ∀ b ∈ s.file.chain rootSize a block, ∀ (bytes : ByteArray) (items : Array Value),
      slice? s.file.bytes b a.size = some bytes →
        Trails R s (readSlots a item b bytes a.capacity 0 items)
          (follows (rowCells rootSize s.file (a.places b)))
          (fun found => found = items ++ (rowValues rootSize s.file (a.places b)).toArray ∧
            ∀ c ∈ rowCells rootSize s.file (a.places b), c.Fits rootSize s.file) E)
    (hbytes : slice? s.file.bytes block a.size = some bytes)
    (hE : ∀ e, Damaged rootSize s.file ((a.part rootSize block).cells s.file) e → E e)
    (items : Array Value) :
    Trails R s (readBlocks rootSize a item block bytes items)
      (follows ((a.part rootSize block).cells s.file))
      (fun found => found = items ++ (a.values rootSize s.file block).toArray ∧
        ∀ c ∈ (a.part rootSize block).cells s.file, c.Fits rootSize s.file) E := by
  -- Along the chain, which stops where a link is zero or must not be followed.
  induction block using File.chain_induct s.file rootSize a generalizing bytes items with
  | stop block hnext =>
    have hslots := hslots block (File.mem_chain_self ..) bytes items hbytes
    have hin := (slice?_eq_some_iff.mp hbytes).1
    show Trails R s _ (follows ((Layout.array a).cells rootSize s.file block)) (fun found => _ ∧
      ∀ c ∈ (Layout.array a).cells rootSize s.file block, _) E
    rw [readBlocks, ArrayLayout.values_of_none hnext, Layout.cells_array_of_none hnext,
      ArrayLayout.linkCells]
    cases hext : a.extent with
    | fixed =>
      rw [List.append_nil]
      exact hslots.bind_pure (f := id)
    | chained =>
      obtain ⟨part, link, hpart, hvalue, hlink⟩ := own.link_of_slice? hext hbytes
      simp only [hpart, hvalue, orAbort_some_bind, follows_append]
      refine hslots.bind fun items' hitems => ?_
      have hdamaged : ∀ e, Damaged rootSize s.file [.link a block (s.file.link a block)] e → E e :=
        fun e he => hE e (he.mono fun c hc => List.mem_singleton.mp hc ▸ ArrayLayout.link_mem hext)
      refine (trails_lastLink own hext hin hnext hlink hdamaged).mono (fun found h => ?_) fun _ h => h
      obtain ⟨rfl, hfits⟩ := h
      exact ⟨hitems.1, List.forall_mem_append.mpr ⟨hitems.2, List.forall_mem_singleton.mpr hfits⟩⟩
  | step block next hnext ih =>
    obtain ⟨hext, hlink', hleads⟩ := File.next?_eq_some_iff.mp hnext
    obtain ⟨part, link, hpart, hvalue, hlink⟩ := own.link_of_slice? hext hbytes
    obtain rfl : link.toNat = next := hlink.trans hlink'
    have hne : link ≠ 0 := fun hzero => hleads.ne_zero (by rw [hzero]; rfl)
    have hfits := Cell.fits_of_next? (own.size_of_chained hext) (slice?_eq_some_iff.mp hbytes).1 hnext
    have hcells : (a.part rootSize block).cells s.file = _ := Layout.cells_array_of_some hnext
    have htrail : follows ((a.part rootSize block).cells s.file) =
        follows (rowCells rootSize s.file (a.places block)) ++ ([] ++ ([link.toNat] ++
          follows ((a.part rootSize link.toNat).cells s.file))) := by
      rw [hcells, follows_append, ← List.singleton_append, follows_append, follows_link hleads.ne_zero]
      rfl
    rw [File.chain_of_some hnext] at hslots
    rw [readBlocks, htrail]
    simp only [hext, hpart, hvalue, orAbort_some_bind, if_neg hne]
    refine (hslots block (List.mem_cons_self ..) bytes items hbytes).bind fun items' hitems => ?_
    refine .bind ((Trails.checkLink link).mono (fun _ h => h) fun e h => absurd hleads h.1)
      fun found h => ?_
    obtain ⟨found, hfound⟩ := found
    obtain rfl : found = link.toNat := h.1
    refine .bind (.read hleads.2.2) fun bytes hbytes => ?_
    refine (ih (fun b hb => hslots b (List.mem_cons_of_mem _ hb)) hbytes (fun e he => hE e
      (he.mono (ArrayLayout.cells_subset_of_next? hnext))) _).mono (fun vs hvs => ⟨?_, ?_⟩) fun _ h => h
    · rw [hvs.1, hitems.1, ArrayLayout.values_of_some hnext]
      simp
    · rw [hcells]
      exact List.forall_mem_append.mpr ⟨hitems.2, List.forall_mem_cons.mpr ⟨hlink' ▸ hfits, hvs.2⟩⟩

/-- What decoding does at every place that the file has. -/
def Layout.Decodes (R : List Nat → Session δ → Session δ → Prop) (rootSize : Nat) (s : Session δ)
    (l : Layout) : Prop :=
  ∀ (base : Nat) (bytes : ByteArray), slice? s.file.bytes base l.size = some bytes →
    Trails R s (decode rootSize l base bytes) (follows (l.cells rootSize s.file base))
      (fun v => v = l.value rootSize s.file base ∧
        ∀ c ∈ l.cells rootSize s.file base, c.Fits rootSize s.file)
      (Damaged rootSize s.file (l.cells rootSize s.file base))

theorem trails_decodeFields {fields : List FieldLayout} {base length : Nat} {bytes : ByteArray}
    (hfit : s.Fits) (hbytes : slice? s.file.bytes base length = some bytes)
    (hle : ∀ f ∈ fields, f.offset + f.layout.size ≤ length)
    (hdecodes : ∀ f ∈ fields, f.layout.Decodes R rootSize s)
    {row : List (Layout × Nat)} (hrow : row = fields.map fun f => (f.layout, base + f.offset)) :
    Trails R s (decodeFields rootSize fields base bytes) (follows (rowCells rootSize s.file row))
      (fun found => found = (fields.map (·.name)).zip (rowValues rootSize s.file row) ∧
        ∀ c ∈ rowCells rootSize s.file row, c.Fits rootSize s.file)
      (Damaged rootSize s.file (rowCells rootSize s.file row)) := by
  subst hrow
  induction fields with
  | nil =>
    rw [decodeFields]
    exact .pure ⟨rfl, by simp⟩
  | cons field rest ih =>
    obtain ⟨name, layout, offset⟩ := field
    obtain ⟨hle₁, hle⟩ := List.forall_mem_cons.mp hle
    obtain ⟨hdecode, hdecodes⟩ := List.forall_mem_cons.mp hdecodes
    have hin := (slice?_eq_some_iff.mp hbytes).1
    have hlt : s.file.bytes.size < wordLimit := hfit
    replace hle₁ : offset + layout.size ≤ length := hle₁
    obtain ⟨slice, hslice⟩ := exists_slice? s.file (base + offset) layout.size
      (by show _ ≤ s.file.bytes.size; omega)
    rw [decodeFields, slice?_slice? hbytes hle₁, hslice,
      checkedAdd_eq_some_iff.mpr ⟨rfl, (by omega : base + offset < wordLimit)⟩, orAbort_some_bind,
      orAbort_some_bind, List.map_cons, rowCells_cons, follows_append]
    refine .bind ((hdecode (base + offset) slice hslice).mono (fun _ h => h) fun e he =>
      he.mono fun c hc => List.mem_append_left _ hc) fun v hv => ?_
    obtain ⟨rfl, hcells⟩ := hv
    refine ((ih hle hdecodes).mono (fun more hmore => ?_) fun e he =>
      he.mono fun c hc => List.mem_append_right _ hc).bind_pure
    obtain ⟨rfl, hmore⟩ := hmore
    exact ⟨rfl, List.forall_mem_append.mpr ⟨hcells, hmore⟩⟩

/-- Decoding a place gives its value. -/
theorem trails_decode {l : Layout} (hw : l.WellFormed) (hfit : s.Fits) :
    l.Decodes R rootSize s := by
  induction hw with
  | scalar kind =>
    intro base bytes hbytes
    rw [decode, Scalar.decode_of_size (size_of_slice? hbytes), number_of_slice? hbytes]
    exact .pure ⟨rfl, List.forall_mem_singleton.mpr (slice?_eq_some_iff.mp hbytes).1⟩
  | @record r own _ ih =>
    intro base bytes hbytes
    have hfields := trails_decodeFields (R := R) hfit hbytes
      (fun f hf => (own.packed.le_of_mem hf).2) ih (rfl : r.places base = _)
    rw [Layout.value_record, Layout.cells_record]
    obtain ⟨name, fields, size, hasChain⟩ := r
    rw [decode]
    refine (hfields.mono (fun values hvalues => ?_) fun _ h => h).bind_pure
    exact ⟨congrArg Value.record hvalues.1, hvalues.2⟩
  | @array a own _ ih =>
    intro base bytes hbytes
    have hitem : ∀ p ∈ (Layout.array a).children rootSize s.file base, ∀ slot,
        slice? s.file.bytes p.2 p.1.size = some slot →
          Trails R s (decode rootSize a.element p.2 slot) (follows (p.1.cells rootSize s.file p.2))
            (fun v => v = p.1.value rootSize s.file p.2 ∧
              ∀ c ∈ p.1.cells rootSize s.file p.2, c.Fits rootSize s.file)
            (Damaged rootSize s.file ((a.part rootSize base).cells s.file)) := by
      intro p hp slot hslot
      have hcells := Layout.cells_of_mem_children hp
      obtain ⟨b, -, hp⟩ := List.mem_flatMap.mp hp
      obtain ⟨i, -, rfl⟩ := List.mem_map.mp hp
      exact (ih _ slot hslot).mono (fun _ h => h) fun e he => he.mono hcells
    have hblocks := trails_readBlocks own (fun b hb bytes items hbytes => List.drop_zero ▸
      trails_readSlots own hfit hbytes (fun p hp => hitem p (List.mem_flatMap.mpr ⟨b, hb, hp⟩))
        (Nat.zero_add _) items) hbytes (fun _ h => h) #[]
    rw [Layout.value_array]
    obtain ⟨element, capacity, extent, size, capacity_pos⟩ := a
    rw [decode]
    refine (hblocks.mono (fun items hitems => ?_) fun _ h => h).bind_pure
    exact ⟨by rw [hitems.1]; simp, hitems.2⟩

/-- Reading a place that the file has gives its value, and follows its links. -/
theorem trails_readValue {l : Layout} {offset : Nat} (hw : l.WellFormed) (hfit : s.Fits)
    (hle : offset + l.size ≤ s.file.size) :
    Trails R s (readValue rootSize l offset) (offset :: follows (l.cells rootSize s.file offset))
      (fun v => v = l.value rootSize s.file offset ∧
        ∀ c ∈ l.cells rootSize s.file offset, c.Fits rootSize s.file)
      (Damaged rootSize s.file (l.cells rootSize s.file offset)) :=
  .bind (.read hle) fun bytes hbytes => trails_decode hw hfit offset bytes hbytes

/-- Reading a place that the file has gives its value. -/
theorem reads_readValue {l : Layout} {offset : Nat} (hw : l.WellFormed) (hfit : s.Fits)
    (hle : offset + l.size ≤ s.file.size) :
    Reads s (readValue rootSize l offset) (· = l.value rootSize s.file offset)
      (Damaged rootSize s.file (l.cells rootSize s.file offset)) :=
  ((trails_readValue (R := fun _ => Same) hw hfit hle).mono (fun _ h => h.1) fun _ h => h).reads

end

end RecordFile
