import RecordFile.Proofs.Action

/-!
# Well-formed layouts

A layout is well formed if the sizes and offsets it holds are those of its parts: the fields of a
record lie one after the other and fill it (`FieldLayout.Packed`), an array is as long as its slots
and, if it is chained, its link, and all sizes are words.

- `WellFormed.size_lt`: the size of a well-formed layout is a word.
- `Packed.le_of_mem`: fields lie inside their record.
- `RecordLayout.make?_wellFormed`, `ArrayLayout.make?_wellFormed`: layouts that are made of
  well-formed layouts are well formed.
-/

namespace RecordFile

/-- The fields lie one after the other from `start` to `stop`. -/
def FieldLayout.Packed : (start : Nat) → List FieldLayout → (stop : Nat) → Prop
  | start, [], stop => start = stop
  | start, f :: rest, stop => f.offset = start ∧ Packed (start + f.layout.size) rest stop

/-- What a record layout says of its own parts is true. -/
structure RecordLayout.WellFormed (r : RecordLayout) : Prop where
  packed : FieldLayout.Packed 0 r.fields r.size
  size_lt : r.size < wordLimit
  nodup : (r.fields.map (·.name)).Nodup
  hasChain_eq : r.hasChain = r.fields.any (·.layout.hasChain)

/-- What an array layout says of its own parts is true. -/
structure ArrayLayout.WellFormed (a : ArrayLayout) : Prop where
  sizeOf?_eq : ArrayLayout.sizeOf? a.element a.capacity a.extent = some a.size
  capacity_le : a.extent = .chained → a.capacity ≤ maxBlockCapacity

/-- What a layout and all its parts say of their parts is true. -/
inductive Layout.WellFormed : Layout → Prop
  | scalar (kind : Scalar) : WellFormed (.scalar kind)
  | record {r : RecordLayout} (own : r.WellFormed) (fields : ∀ f ∈ r.fields, WellFormed f.layout) :
    WellFormed (.record r)
  | array {a : ArrayLayout} (own : a.WellFormed) (element : WellFormed a.element) :
    WellFormed (.array a)

/-- `R` holds of all records in a type, and `A` of all arrays. -/
inductive Layout.Every (R : RecordLayout → Prop) (A : ArrayLayout → Prop) : Layout → Prop
  | scalar (kind : Scalar) : Every R A (.scalar kind)
  | record {r : RecordLayout} (own : R r) (fields : ∀ f ∈ r.fields, Every R A f.layout) :
    Every R A (.record r)
  | array {a : ArrayLayout} (own : A a) (element : Every R A a.element) : Every R A (.array a)

theorem Layout.WellFormed.of_record {r : RecordLayout} (h : (Layout.record r).WellFormed) :
    r.WellFormed := by
  cases h
  assumption

theorem Layout.WellFormed.of_array {a : ArrayLayout} (h : (Layout.array a).WellFormed) :
    a.WellFormed ∧ a.element.WellFormed := by
  cases h
  exact ⟨‹_›, ‹_›⟩

/-! ## Fields -/

namespace FieldLayout.Packed

theorem le {start stop : Nat} {fields : List FieldLayout} (h : Packed start fields stop) :
    start ≤ stop := by
  induction fields generalizing start with
  | nil => exact Nat.le_of_eq h
  | cons f rest ih => exact Nat.le_trans (Nat.le_add_right ..) (ih h.2)

/-- Every field lies between the start and the end. -/
theorem le_of_mem {start stop : Nat} {fields : List FieldLayout} (h : Packed start fields stop)
    {f : FieldLayout} (hf : f ∈ fields) : start ≤ f.offset ∧ f.offset + f.layout.size ≤ stop := by
  induction fields generalizing start with
  | nil => cases hf
  | cons g rest ih =>
    obtain ⟨rfl, h⟩ := h
    rcases List.mem_cons.mp hf with rfl | hf
    · exact ⟨Nat.le_refl _, h.le⟩
    · have := ih h hf
      omega

theorem append_iff {start stop : Nat} {fields rest : List FieldLayout} :
    Packed start (fields ++ rest) stop ↔ ∃ mid, Packed start fields mid ∧ Packed mid rest stop := by
  induction fields generalizing start with
  | nil => simp [Packed]
  | cons f fields ih => simp [Packed, ih, and_assoc]

end FieldLayout.Packed

/-! ## Records -/

namespace RecordLayout

/-- Placing fields keeps them packed, keeps their names apart and forgets none. -/
theorem place_packed {record : String} {placed fields : List FieldLayout} {size stop : Nat}
    {rest : List (String × Layout)} (h : place record placed size rest = .ok (fields, stop))
    (hp : FieldLayout.Packed 0 placed size) (hn : (placed.map (·.name)).Nodup)
    (hs : size < wordLimit) :
    FieldLayout.Packed 0 fields stop ∧ (fields.map (·.name)).Nodup ∧ stop < wordLimit ∧
      fields.map (fun f => (f.name, f.layout)) =
        placed.map (fun f => (f.name, f.layout)) ++ rest := by
  induction rest generalizing placed size with
  | nil =>
    obtain ⟨rfl, rfl⟩ : placed = fields ∧ size = stop := by simpa [place] using h
    simp [hp, hn, hs]
  | cons field rest ih =>
    obtain ⟨name, layout⟩ := field
    rw [place] at h
    split at h
    · cases h
    split at h
    · cases h
    rename_i hname _ next hnext
    obtain ⟨rfl, hlt⟩ := checkedAdd_eq_some_iff.mp hnext
    have hp' : FieldLayout.Packed 0 (placed ++ [⟨name, layout, size⟩]) (size + layout.size) :=
      FieldLayout.Packed.append_iff.mpr ⟨size, hp, rfl, rfl⟩
    have hn' : ((placed ++ [(⟨name, layout, size⟩ : FieldLayout)]).map (·.name)).Nodup := by
      have hnot : ∀ f ∈ placed, ¬ f.name = name := by simpa using hname
      simp only [List.map_append, List.map_cons, List.map_nil, List.nodup_append, hn, true_and]
      refine ⟨List.nodup_singleton name, ?_⟩
      simpa using hnot
    obtain ⟨h₁, h₂, h₃, h₄⟩ := ih h hp' hn' hlt
    exact ⟨h₁, h₂, h₃, by simpa using h₄⟩

/-- A record that is made has the given name and fields and tells the truth of its parts. -/
theorem make?_eq_ok {name : String} {fields : List (String × Layout)} {r : RecordLayout}
    (h : make? name fields = .ok r) :
    r.name = name ∧ r.fields.map (fun f => (f.name, f.layout)) = fields ∧ r.WellFormed := by
  rw [make?] at h
  cases hp : place name [] 0 fields with
  | error e => simp [hp, bind, Except.bind] at h
  | ok result =>
    obtain ⟨placed, size⟩ := result
    obtain rfl : ⟨name, placed, size, placed.any (·.layout.hasChain)⟩ = r := by
      simpa [hp, bind, Except.bind] using h
    obtain ⟨packed, nodup, lt, each⟩ := place_packed hp rfl List.nodup_nil (by decide)
    exact ⟨rfl, by simpa using each, packed, lt, nodup, rfl⟩

/-- The fields of a record that is made are among the given ones. -/
theorem mem_of_make? {name : String} {fields : List (String × Layout)} {r : RecordLayout}
    (h : make? name fields = .ok r) {f : FieldLayout} (hf : f ∈ r.fields) :
    (f.name, f.layout) ∈ fields := by
  obtain ⟨-, rfl, -⟩ := make?_eq_ok h
  exact List.mem_map_of_mem hf

theorem make?_wellFormed {name : String} {fields : List (String × Layout)} {r : RecordLayout}
    (h : make? name fields = .ok r) (hf : ∀ f ∈ fields, f.2.WellFormed) :
    (Layout.record r).WellFormed :=
  .record (make?_eq_ok h).2.2 fun _ hmem => hf _ (mem_of_make? h hmem)

end RecordLayout

/-- The offset of a field of a record that ends at a word is a word. -/
theorem RecordLayout.WellFormed.fieldOffset_eq {r : RecordLayout} (own : r.WellFormed) {offset : Nat}
    (hlt : offset + r.size < wordLimit) {f : FieldLayout} (hf : f ∈ r.fields) :
    checkedAdd offset f.offset = some (offset + f.offset) := by
  have := (own.packed.le_of_mem hf).2
  exact checkedAdd_eq_some_iff.mpr ⟨rfl, by omega⟩

/-! ## Arrays -/

namespace ArrayLayout

theorem make?_eq_ok {element : Layout} {capacity : Nat} {extent : Extent} {a : ArrayLayout}
    (h : make? element capacity extent = .ok a) : a.element = element ∧ a.WellFormed := by
  rw [make?] at h
  split at h
  · split at h
    · cases h
    · rename_i hcap
      split at h
      · cases h
        exact ⟨rfl, ‹_›, fun hext => Nat.le_of_not_lt fun hlt => hcap ⟨hext, hlt⟩⟩
      · cases h
  · cases h

theorem make?_wellFormed {element : Layout} {capacity : Nat} {extent : Extent} {a : ArrayLayout}
    (h : make? element capacity extent = .ok a) (he : element.WellFormed) :
    (Layout.array a).WellFormed := by
  obtain ⟨rfl, own⟩ := make?_eq_ok h
  exact .array own he

namespace WellFormed

variable {a : ArrayLayout}

theorem size_of_fixed (h : a.WellFormed) (hext : a.extent = .fixed) : a.size = a.slotsSize := by
  have := h.sizeOf?_eq
  rw [hext, sizeOf?, checkedMul_eq_some_iff] at this
  exact this.1.symm

theorem size_of_chained (h : a.WellFormed) (hext : a.extent = .chained) :
    a.size = a.slotsSize + linkSize := by
  have := h.sizeOf?_eq
  rw [hext, sizeOf?] at this
  obtain ⟨slots, hslots, hsum⟩ := Option.bind_eq_some_iff.mp this
  rw [checkedMul_eq_some_iff] at hslots
  rw [checkedAdd_eq_some_iff] at hsum
  exact hsum.1.symm.trans (congrArg (· + linkSize) hslots.1.symm)

/-- A block that has a link is not empty. -/
theorem size_pos (h : a.WellFormed) (hext : a.extent = .chained) : 0 < a.size := by
  rw [h.size_of_chained hext]
  exact Nat.add_pos_right _ (by decide)

theorem size_lt (h : a.WellFormed) : a.size < wordLimit := by
  have := h.sizeOf?_eq
  cases hext : a.extent with
  | fixed =>
    rw [hext, sizeOf?, checkedMul_eq_some_iff] at this
    exact this.2
  | chained =>
    rw [hext, sizeOf?] at this
    obtain ⟨slots, -, hsum⟩ := Option.bind_eq_some_iff.mp this
    exact (checkedAdd_eq_some_iff.mp hsum).2

theorem slotsSize_le (h : a.WellFormed) : a.slotsSize ≤ a.size := by
  cases hext : a.extent with
  | fixed => exact Nat.le_of_eq (h.size_of_fixed hext).symm
  | chained => exact h.size_of_chained hext ▸ Nat.le_add_right ..

end WellFormed

/-- A slot ends before the slots of its block do. -/
theorem slot_le (a : ArrayLayout) {i : Nat} (hi : i < a.capacity) :
    i * a.element.size + a.element.size ≤ a.slotsSize := by
  have : (i + 1) * a.element.size ≤ a.slotsSize := Nat.mul_le_mul_right _ hi
  rwa [Nat.add_mul, Nat.one_mul] at this

/-- The offset of a slot of a block that ends at a word is a word. -/
theorem slotOffset?_eq {a : ArrayLayout} (h : a.WellFormed) {block i : Nat} (hi : i < a.capacity)
    (hlt : block + a.size < wordLimit) :
    a.slotOffset? block i = some (block + i * a.element.size) := by
  have := a.slot_le hi
  have := h.slotsSize_le
  rw [slotOffset?, if_pos ⟨hi, by omega⟩]

/-- The offset of a slot is there, or it is past the words. -/
theorem slotOffset?_cases {a : ArrayLayout} {i : Nat} (hi : i < a.capacity) (block : Nat) :
    a.slotOffset? block i = some (block + i * a.element.size) ∨
      a.slotOffset? block i = none ∧ wordLimit ≤ block + i * a.element.size := by
  unfold slotOffset?
  split
  · exact .inl rfl
  · exact .inr ⟨rfl, by omega⟩

theorem linkOffset_le {a : ArrayLayout} {block : Nat} (own : a.WellFormed)
    (hext : a.extent = .chained) {n : Nat} (hle : block + a.size ≤ n) :
    a.linkOffset block + linkSize ≤ n := by
  have := own.size_of_chained hext
  unfold linkOffset
  omega

end ArrayLayout

/-! ## Steps -/

/-- Neither of the paths goes on from the other. -/
def Diverge (steps steps' : List UInt64) : Prop := ¬ steps <+: steps' ∧ ¬ steps' <+: steps

namespace Diverge

variable {step step' : UInt64} {steps steps' rest rest' : List UInt64}

instance (steps steps' : List UInt64) : Decidable (Diverge steps steps') :=
  inferInstanceAs (Decidable (_ ∧ _))

theorem symm (h : Diverge steps steps') : Diverge steps' steps := ⟨h.2, h.1⟩

theorem not_nil_left : ¬ Diverge [] steps := fun h => h.1 List.nil_prefix

theorem not_nil_right : ¬ Diverge steps [] := fun h => h.2 List.nil_prefix

/-- Paths that start with the same step part behind it. -/
theorem tail (h : Diverge (step :: rest) (step :: rest')) : Diverge rest rest' := by
  simpa only [Diverge, List.prefix_cons_inj] using h

end Diverge

namespace Layout

variable {below : Layout} {path : Path} {position : Nat} {step : UInt64} {rest : List UInt64}

theorem child_record_eq_ok_iff {r : RecordLayout} :
    (record r).child path position step = .ok below ↔
      ∃ f, r.fields[step.toNat]? = some f ∧ f.layout = below := by
  rw [child]
  split <;> simp [*]

theorem child_array_eq_ok_iff {a : ArrayLayout} :
    (array a).child path position step = .ok below ↔
      ¬ (a.extent = .fixed ∧ a.capacity ≤ step.toNat) ∧ a.element = below := by
  rw [child]
  split <;> simp [*]

theorem child_scalar {kind : Scalar} : (scalar kind).child path position step ≠ .ok below := nofun

/-- There is nothing below a scalar. -/
theorem descend_scalar (kind : Scalar) (l : Layout) :
    (scalar kind).descend path position (step :: rest) ≠ .ok l := by
  simp [descend, child, bind, Except.bind]

theorem descend_record_of_none {r : RecordLayout} (h : r.fields[step.toNat]? = none) (l : Layout) :
    (record r).descend path position (step :: rest) ≠ .ok l := by
  simp [descend, child, h, bind, Except.bind]

theorem descend_record_of_some {r : RecordLayout} {f : FieldLayout}
    (h : r.fields[step.toNat]? = some f) :
    (record r).descend path position (step :: rest) =
      f.layout.descend path (position + 1) rest := by
  simp [descend, child, h, bind, Except.bind]

theorem descend_array_of_le {a : ArrayLayout} (h : a.extent = .fixed ∧ a.capacity ≤ step.toNat)
    (l : Layout) : (array a).descend path position (step :: rest) ≠ .ok l := by
  simp [descend, child, h, bind, Except.bind]

theorem descend_array {a : ArrayLayout} (h : ¬ (a.extent = .fixed ∧ a.capacity ≤ step.toNat)) :
    (array a).descend path position (step :: rest) = a.element.descend path (position + 1) rest := by
  simp [descend, child, h, bind, Except.bind]

theorem descend_cons {l l' : Layout} :
    l.descend path position (step :: rest) = .ok l' ↔
      ∃ below, l.child path position step = .ok below ∧
        below.descend path (position + 1) rest = .ok l' := by
  rw [descend]
  cases l.child path position step <;> simp [bind, Except.bind]

theorem Every.of_child {R : RecordLayout → Prop} {A : ArrayLayout → Prop} {l : Layout}
    (h : l.Every R A) (hchild : l.child path position step = .ok below) : below.Every R A := by
  cases h with
  | scalar kind => exact absurd hchild child_scalar
  | record own fields =>
    obtain ⟨f, hf, rfl⟩ := child_record_eq_ok_iff.mp hchild
    exact fields f (List.mem_of_getElem? hf)
  | array own element => exact (child_array_eq_ok_iff.mp hchild).2 ▸ element

theorem WellFormed.of_child {l : Layout} (hw : l.WellFormed)
    (h : l.child path position step = .ok below) : below.WellFormed := by
  cases hw with
  | scalar kind => exact absurd h child_scalar
  | record own fields =>
    obtain ⟨f, hf, rfl⟩ := child_record_eq_ok_iff.mp h
    exact fields f (List.mem_of_getElem? hf)
  | array own element =>
    obtain ⟨-, rfl⟩ := child_array_eq_ok_iff.mp h
    exact element

theorem WellFormed.of_descend {l l' : Layout} {steps : List UInt64} (hw : l.WellFormed)
    (h : l.descend path position steps = .ok l') : l'.WellFormed := by
  induction steps generalizing l position with
  | nil =>
    obtain rfl := Except.ok.inj h
    exact hw
  | cons step rest ih =>
    obtain ⟨below, hchild, hbelow⟩ := descend_cons.mp h
    exact ih (hw.of_child hchild) hbelow

/-- Where steps lead does not depend on the path they are taken for. -/
theorem descend_congr {l l' : Layout} {steps : List UInt64} {path' : Path} {position' : Nat}
    (h : l.descend path position steps = .ok l') : l.descend path' position' steps = .ok l' := by
  induction steps generalizing l position position' with
  | nil => exact h
  | cons step rest ih =>
    obtain ⟨below, hchild, hbelow⟩ := descend_cons.mp h
    refine descend_cons.mpr ⟨below, ?_, ih hbelow⟩
    cases l with
    | scalar kind => exact absurd hchild child_scalar
    | record r => exact child_record_eq_ok_iff.mpr (child_record_eq_ok_iff.mp hchild)
    | array a => exact child_array_eq_ok_iff.mpr (child_array_eq_ok_iff.mp hchild)

/-- Past the first steps, the type that they lead to is gone on from. -/
theorem descend_append {l l' : Layout} {steps : List UInt64}
    (h : l.descend path position steps = .ok l') :
    l.descend path position (steps ++ rest) = l'.descend path (position + steps.length) rest := by
  induction steps generalizing position l with
  | nil =>
    obtain rfl := Except.ok.inj h
    rfl
  | cons step steps ih =>
    rw [descend] at h
    cases hchild : l.child path position step with
    | error e =>
      rw [hchild] at h
      cases h
    | ok below =>
      rw [hchild] at h
      rw [List.cons_append, descend, hchild, List.length_cons, Nat.add_comm steps.length,
        ← Nat.add_assoc]
      exact ih h

end Layout

/-- Sizes of well-formed layouts are words. -/
theorem Layout.WellFormed.size_lt {l : Layout} (h : l.WellFormed) : l.size < wordLimit := by
  cases h with
  | scalar kind => exact Nat.lt_of_le_of_lt kind.width_le (by decide)
  | record own _ => exact own.size_lt
  | array own _ => exact own.size_lt

end RecordFile
