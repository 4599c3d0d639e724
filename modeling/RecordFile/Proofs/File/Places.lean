import RecordFile.Proofs.File.Bytes
import RecordFile.Proofs.Layout.WellFormed

/-!
# What lies where in a file

A type and an offset determine which parts of a file belong together: the blocks of a chain, the
slots in them, and so on down to the scalars. All of this is computed from the file alone.

- `File.chain`: the blocks of a chained array, as far as its links may be followed.
- `Layout.children`: the places of the fields of a record or of the elements of an array.
- `Layout.placeAt`: the place at the end of some steps of a path.
- `Layout.cells`: the scalars and links that lie at a place and in the blocks that it reaches.
- `Layout.value`: the value they stand for.
-/

namespace RecordFile

namespace File

/-- The link of the block at `block`. -/
def link (f : File) (a : ArrayLayout) (block : Nat) : Nat := f.number (a.linkOffset block) linkSize

/-- A link of the block at `block` that holds `next` may be followed. -/
def Leads (f : File) (rootSize : Nat) (a : ArrayLayout) (block next : Nat) : Prop :=
  block < next ∧ rootSize ≤ next ∧ next + a.size ≤ f.size

instance (f : File) (rootSize : Nat) (a : ArrayLayout) (block next : Nat) :
    Decidable (f.Leads rootSize a block next) := inferInstanceAs (Decidable (_ ∧ _ ∧ _))

theorem Leads.ne_zero {f : File} {rootSize : Nat} {a : ArrayLayout} {block next : Nat}
    (h : f.Leads rootSize a block next) : next ≠ 0 :=
  Nat.ne_of_gt (Nat.lt_of_le_of_lt (Nat.zero_le _) h.1)

/-- The block behind the one at `block`, if its link may be followed. -/
def next? (f : File) (rootSize : Nat) (a : ArrayLayout) (block : Nat) : Option Nat :=
  if a.extent = .chained ∧ f.Leads rootSize a block (f.link a block) then some (f.link a block)
  else none

theorem next?_eq_some_iff {f : File} {rootSize : Nat} {a : ArrayLayout} {block next : Nat} :
    f.next? rootSize a block = some next ↔
      a.extent = .chained ∧ f.link a block = next ∧ f.Leads rootSize a block next := by
  unfold next?
  split <;> grind

/-- The blocks of the array at `block`. -/
def chain (f : File) (rootSize : Nat) (a : ArrayLayout) (block : Nat) : List Nat :=
  match _h : f.next? rootSize a block with
  | none => [block]
  | some next => block :: chain f rootSize a next
termination_by f.size - block
decreasing_by
  have := (next?_eq_some_iff.mp _h).2.2
  unfold Leads at this
  omega

section

variable {f : File} {rootSize : Nat} {a : ArrayLayout} {block next : Nat}

theorem chain_of_none (h : f.next? rootSize a block = none) :
    f.chain rootSize a block = [block] := by
  rw [chain]
  split <;> simp_all

theorem chain_of_some (h : f.next? rootSize a block = some next) :
    f.chain rootSize a block = block :: f.chain rootSize a next := by
  rw [chain]
  split <;> simp_all

theorem mem_chain_self (f : File) (rootSize : Nat) (a : ArrayLayout) (block : Nat) :
    block ∈ f.chain rootSize a block := by
  rw [chain]
  split <;> exact List.mem_cons_self ..

theorem next?_of_fixed (h : a.extent = .fixed) : f.next? rootSize a block = none := by
  simp [next?, h]

theorem next?_of_zero (h : f.link a block = 0) : f.next? rootSize a block = none := by
  simp [next?, Leads, h]

/-- Along the chain, block by block. -/
theorem chain_induct (f : File) (rootSize : Nat) (a : ArrayLayout) {P : Nat → Prop}
    (stop : ∀ block, f.next? rootSize a block = none → P block)
    (step : ∀ block next, f.next? rootSize a block = some next → P next → P block) (block : Nat) :
    P block := by
  fun_induction chain f rootSize a block with
  | case1 block h => exact stop block h
  | case2 block next h ih => exact step block next h ih

end

end File

/-! ## Places -/

/-- The places of the fields of a record at `offset`. -/
def RecordLayout.places (r : RecordLayout) (offset : Nat) : List (Layout × Nat) :=
  r.fields.map fun f => (f.layout, offset + f.offset)

/-- The places of the slots of the block at `block`. -/
def ArrayLayout.places (a : ArrayLayout) (block : Nat) : List (Layout × Nat) :=
  (List.range a.capacity).map fun i => (a.element, block + i * a.element.size)

theorem RecordLayout.map_places {β : Type} (r : RecordLayout) (offset : Nat) (change : Layout → β) :
    (r.places offset).map (fun p => change p.1) = r.fields.map fun f => change f.layout := by
  simp [RecordLayout.places, Function.comp_def]

theorem RecordLayout.layouts_places (r : RecordLayout) (offset : Nat) :
    (r.places offset).map (·.1) = r.fields.map (·.layout) := r.map_places offset id

@[simp] theorem RecordLayout.length_places (r : RecordLayout) (offset : Nat) :
    (r.places offset).length = r.fields.length := by
  simp [RecordLayout.places]

/-- The places of the fields of a record have what its fields have. -/
theorem RecordLayout.forall_places {r : RecordLayout} {P : Layout → Prop}
    (h : ∀ f ∈ r.fields, P f.layout) (offset : Nat) : ∀ p ∈ r.places offset, P p.1 := fun p hp => by
  obtain ⟨f, hf, rfl⟩ := List.mem_map.mp hp
  exact h f hf

theorem ArrayLayout.map_places {β : Type} (a : ArrayLayout) (block : Nat) (change : Layout → β) :
    (a.places block).map (fun p => change p.1) = List.replicate a.capacity (change a.element) := by
  simp [ArrayLayout.places, Function.comp_def]

theorem ArrayLayout.layouts_places (a : ArrayLayout) (block : Nat) :
    (a.places block).map (·.1) = List.replicate a.capacity a.element := a.map_places block id

/-- The places of the slots of a block have what its elements have. -/
theorem ArrayLayout.forall_places {a : ArrayLayout} {P : Layout → Prop} (h : P a.element)
    (block : Nat) : ∀ p ∈ a.places block, P p.1 := fun p hp => by
  obtain ⟨i, -, rfl⟩ := List.mem_map.mp hp
  exact h

@[simp] theorem ArrayLayout.length_places (a : ArrayLayout) (block : Nat) :
    (a.places block).length = a.capacity := by
  simp [ArrayLayout.places]

/-- The slots from one on. -/
theorem ArrayLayout.drop_places {a : ArrayLayout} {i : Nat} (hi : i < a.capacity) (block : Nat) :
    (a.places block).drop i =
      (a.element, block + i * a.element.size) :: (a.places block).drop (i + 1) := by
  rw [List.drop_eq_getElem_cons (by simpa)]
  simp [ArrayLayout.places]

/-- The places lie one after the other from `start` to `stop`. -/
def RowPacked : (start : Nat) → List (Layout × Nat) → (stop : Nat) → Prop
  | start, [], stop => start = stop
  | start, p :: row, stop => p.2 = start ∧ RowPacked (start + p.1.size) row stop

theorem RowPacked.le {start stop : Nat} {row : List (Layout × Nat)} (h : RowPacked start row stop) :
    start ≤ stop := by
  induction row generalizing start with
  | nil => exact Nat.le_of_eq h
  | cons p row ih => exact Nat.le_trans (Nat.le_add_right ..) (ih h.2)

theorem RowPacked.le_of_mem {start stop : Nat} {row : List (Layout × Nat)}
    (h : RowPacked start row stop) {p : Layout × Nat} (hp : p ∈ row) :
    start ≤ p.2 ∧ p.2 + p.1.size ≤ stop := by
  induction row generalizing start with
  | nil => cases hp
  | cons q row ih =>
    obtain ⟨hq, h⟩ := h
    rcases List.mem_cons.mp hp with rfl | hp
    · exact ⟨Nat.le_of_eq hq.symm, hq ▸ h.le⟩
    · have := ih h hp
      omega

theorem RecordLayout.WellFormed.places_packed {r : RecordLayout} (h : r.WellFormed) (offset : Nat) :
    RowPacked offset (r.places offset) (offset + r.size) := by
  have hrow : ∀ (fields : List FieldLayout) (start : Nat), FieldLayout.Packed start fields r.size →
      RowPacked (offset + start) (fields.map fun f => (f.layout, offset + f.offset))
        (offset + r.size) := by
    intro fields
    induction fields with
    | nil => exact fun start hp => congrArg (offset + ·) hp
    | cons f rest ih => exact fun start hp =>
        ⟨congrArg (offset + ·) hp.1, Nat.add_assoc offset start _ ▸ ih _ hp.2⟩
  exact hrow r.fields 0 h.packed

theorem ArrayLayout.places_packed (a : ArrayLayout) (block : Nat) :
    RowPacked block (a.places block) (block + a.slotsSize) := by
  have hrow : ∀ count start : Nat,
      RowPacked (block + start * a.element.size)
        ((List.range' start count).map fun i => (a.element, block + i * a.element.size))
        (block + (start + count) * a.element.size) := by
    intro count
    induction count with
    | zero => exact fun start => rfl
    | succ count ih =>
      intro start
      refine ⟨rfl, ?_⟩
      have := ih (start + 1)
      rwa [Nat.add_mul start 1, Nat.one_mul, ← Nat.add_assoc, Nat.add_right_comm start 1] at this
  have := hrow a.capacity 0
  rwa [Nat.zero_mul, Nat.zero_add, ← List.range_eq_range'] at this

namespace Layout

/-- The places one step below a place. -/
def children (rootSize : Nat) (f : File) : Layout → (offset : Nat) → List (Layout × Nat)
  | scalar _, _ => []
  | record r, offset => r.places offset
  | array a, offset => (f.chain rootSize a offset).flatMap a.places

/-- The place at the end of some steps. -/
def placeAt (rootSize : Nat) (f : File) : Layout → (offset : Nat) → List UInt64 →
    Option (Layout × Nat)
  | l, offset, [] => some (l, offset)
  | l, offset, step :: rest =>
    match (l.children rootSize f offset)[step.toNat]? with
    | none => none
    | some (l, offset) => placeAt rootSize f l offset rest

end Layout

/-! ## Cells -/

/-- A piece of a file that is written as a whole. -/
inductive Cell where
  | scalar (kind : Scalar) (offset : Nat)
  /-- The link of the block at `block`, which holds `next`. -/
  | link (a : ArrayLayout) (block next : Nat)

namespace Cell

def offset : Cell → Nat
  | scalar _ offset => offset
  | link a block _ => a.linkOffset block

def width : Cell → Nat
  | scalar kind _ => kind.width
  | link _ _ _ => linkSize

/-- The byte at `x` belongs to the cell. -/
def Covers (c : Cell) (x : Nat) : Prop := c.offset ≤ x ∧ x < c.offset + c.width

/-- The block that the cell links, or zero. -/
def target : Cell → Nat
  | scalar _ _ => 0
  | link _ _ next => next

/-- The size of the blocks of the chain that the cell belongs to. -/
def blockSize : Cell → Nat
  | scalar _ _ => 0
  | link a _ _ => a.size

end Cell

/-- The link of the block at `block`, if it has one. -/
def ArrayLayout.linkCells (f : File) (a : ArrayLayout) (block : Nat) : List Cell :=
  match a.extent with
  | .fixed => []
  | .chained => [.link a block (f.link a block)]

/-- The links of the blocks of an array. -/
def ArrayLayout.links (rootSize : Nat) (f : File) (a : ArrayLayout) (block : Nat) : List Cell :=
  (f.chain rootSize a block).flatMap (a.linkCells f)

namespace Layout

mutual

/-- The scalars and links at a place and in the blocks that it reaches. -/
def cells (rootSize : Nat) (f : File) : Layout → (offset : Nat) → List Cell
  | scalar kind, offset => [.scalar kind offset]
  | record ⟨_, fields, _, _⟩, offset => fieldCells rootSize f fields offset
  | array ⟨element, capacity, extent, size, capacity_pos⟩, offset =>
    let a : ArrayLayout := ⟨element, capacity, extent, size, capacity_pos⟩
    let elementCells := cells rootSize f element
    (f.chain rootSize a offset).flatMap fun block =>
      (List.range capacity).flatMap (fun i => elementCells (block + i * element.size)) ++
        a.linkCells f block

def fieldCells (rootSize : Nat) (f : File) : List FieldLayout → (offset : Nat) → List Cell
  | [], _ => []
  | ⟨_, layout, start⟩ :: rest, offset =>
    cells rootSize f layout (offset + start) ++ fieldCells rootSize f rest offset

end

mutual

/-- The value at a place. -/
def value (rootSize : Nat) (f : File) : Layout → (offset : Nat) → Value
  | scalar kind, offset => kind.ofDigits (f.number offset kind.width)
  | record ⟨_, fields, _, _⟩, offset => .record (fieldValues rootSize f fields offset)
  | array ⟨element, capacity, extent, size, capacity_pos⟩, offset =>
    let a : ArrayLayout := ⟨element, capacity, extent, size, capacity_pos⟩
    let elementValue := value rootSize f element
    .array ((f.chain rootSize a offset).flatMap fun block =>
      (List.range capacity).map fun i => elementValue (block + i * element.size))

def fieldValues (rootSize : Nat) (f : File) : List FieldLayout → (offset : Nat) →
    List (String × Value)
  | [], _ => []
  | ⟨name, layout, start⟩ :: rest, offset =>
    (name, value rootSize f layout (offset + start)) :: fieldValues rootSize f rest offset

end

end Layout

/-- The cells of some places. -/
def rowCells (rootSize : Nat) (f : File) (row : List (Layout × Nat)) : List Cell :=
  row.flatMap fun p => p.1.cells rootSize f p.2

/-- The values of some places. -/
def rowValues (rootSize : Nat) (f : File) (row : List (Layout × Nat)) : List Value :=
  row.map fun p => p.1.value rootSize f p.2

/-- The values of the elements of an array, block by block. -/
def ArrayLayout.values (rootSize : Nat) (f : File) (a : ArrayLayout) (block : Nat) : List Value :=
  rowValues rootSize f ((Layout.array a).children rootSize f block)

/-- The values of the elements behind the block at `block`. -/
def ArrayLayout.rest (rootSize : Nat) (f : File) (a : ArrayLayout) (block : Nat) : List Value :=
  match f.next? rootSize a block with
  | none => []
  | some next => a.values rootSize f next

section

variable {rootSize : Nat} {f : File}

@[simp] theorem rowCells_nil : rowCells rootSize f [] = [] := rfl

@[simp] theorem rowCells_cons (p : Layout × Nat) (row : List (Layout × Nat)) :
    rowCells rootSize f (p :: row) = p.1.cells rootSize f p.2 ++ rowCells rootSize f row := rfl

@[simp] theorem rowCells_append (row row' : List (Layout × Nat)) :
    rowCells rootSize f (row ++ row') = rowCells rootSize f row ++ rowCells rootSize f row' :=
  List.flatMap_append

theorem rowCells_mono {row row' : List (Layout × Nat)} (h : row ⊆ row') :
    rowCells rootSize f row ⊆ rowCells rootSize f row' := fun c hc => by
  obtain ⟨p, hp, hc⟩ := List.mem_flatMap.mp hc
  exact List.mem_flatMap.mpr ⟨p, h hp, hc⟩

@[simp] theorem rowValues_nil : rowValues rootSize f [] = [] := rfl

@[simp] theorem rowValues_cons (p : Layout × Nat) (row : List (Layout × Nat)) :
    rowValues rootSize f (p :: row) = p.1.value rootSize f p.2 :: rowValues rootSize f row := rfl

@[simp] theorem rowValues_append (row row' : List (Layout × Nat)) :
    rowValues rootSize f (row ++ row') = rowValues rootSize f row ++ rowValues rootSize f row' :=
  List.map_append

@[simp] theorem length_rowValues (row : List (Layout × Nat)) :
    (rowValues rootSize f row).length = row.length := List.length_map ..

namespace Layout

theorem cells_scalar (kind : Scalar) (offset : Nat) :
    (scalar kind).cells rootSize f offset = [.scalar kind offset] := rfl

theorem value_scalar (kind : Scalar) (offset : Nat) :
    (scalar kind).value rootSize f offset = kind.ofDigits (f.number offset kind.width) := rfl

theorem cells_record (r : RecordLayout) (offset : Nat) :
    (record r).cells rootSize f offset = rowCells rootSize f (r.places offset) := by
  obtain ⟨name, fields, size, hasChain⟩ := r
  simp only [cells, RecordLayout.places]
  induction fields with
  | nil => rfl
  | cons field rest ih =>
    obtain ⟨name, layout, start⟩ := field
    rw [fieldCells, ih, List.map_cons, rowCells_cons]

theorem value_record (r : RecordLayout) (offset : Nat) :
    (record r).value rootSize f offset =
      .record ((r.fields.map (·.name)).zip (rowValues rootSize f (r.places offset))) := by
  obtain ⟨name, fields, size, hasChain⟩ := r
  simp only [value, RecordLayout.places, Value.record.injEq]
  induction fields with
  | nil => rfl
  | cons field rest ih =>
    obtain ⟨name, layout, start⟩ := field
    rw [fieldValues, ih]
    rfl

theorem cells_array (a : ArrayLayout) (offset : Nat) :
    (array a).cells rootSize f offset = (f.chain rootSize a offset).flatMap fun block =>
      rowCells rootSize f (a.places block) ++ a.linkCells f block := by
  obtain ⟨element, capacity, extent, size, capacity_pos⟩ := a
  simp only [cells, rowCells, ArrayLayout.places, List.flatMap_map]

theorem value_array (a : ArrayLayout) (offset : Nat) :
    (array a).value rootSize f offset = .array (a.values rootSize f offset) := by
  obtain ⟨element, capacity, extent, size, capacity_pos⟩ := a
  simp only [value, ArrayLayout.values, rowValues, children, ArrayLayout.places,
    List.map_flatMap, List.map_map]
  rfl

/-- The first step leads to one of the places below, and the rest goes on from there. -/
theorem placeAt_cons_eq_some {l : Layout} {offset : Nat} {step : UInt64} {rest : List UInt64}
    {p : Layout × Nat} : l.placeAt rootSize f offset (step :: rest) = some p ↔
      ∃ child, (l.children rootSize f offset)[step.toNat]? = some child ∧
        child.1.placeAt rootSize f child.2 rest = some p := by
  rw [placeAt]
  cases (l.children rootSize f offset)[step.toNat]? <;> simp

theorem children_record_of_some {r : RecordLayout} {i : Nat} {field : FieldLayout}
    (h : r.fields[i]? = some field) (offset : Nat) :
    ((record r).children rootSize f offset)[i]? = some (field.layout, offset + field.offset) := by
  simp [children, RecordLayout.places, h]

/-- The places below an array are places of its elements. -/
theorem layout_of_mem_children {a : ArrayLayout} {offset : Nat} {p : Layout × Nat}
    (h : p ∈ (array a).children rootSize f offset) : p.1 = a.element := by
  obtain ⟨b, -, hp⟩ := List.mem_flatMap.mp h
  obtain ⟨i, -, rfl⟩ := List.mem_map.mp hp
  rfl

theorem children_array_of_none {a : ArrayLayout} {block : Nat}
    (h : f.next? rootSize a block = none) :
    (array a).children rootSize f block = a.places block := by
  simp [children, File.chain_of_none h]

theorem children_array_of_some {a : ArrayLayout} {block next : Nat}
    (h : f.next? rootSize a block = some next) :
    (array a).children rootSize f block =
      a.places block ++ (array a).children rootSize f next := by
  simp [children, File.chain_of_some h]

theorem children_array_of_lt {a : ArrayLayout} {block i : Nat} (h : i < a.capacity) :
    ((array a).children rootSize f block)[i]? = some (a.element, block + i * a.element.size) := by
  have hplace : (a.places block)[i]? = some (a.element, block + i * a.element.size) := by
    simp [ArrayLayout.places, h]
  cases hnext : f.next? rootSize a block with
  | none => rw [children_array_of_none hnext, hplace]
  | some next => rw [children_array_of_some hnext, List.getElem?_append_left (by simpa), hplace]

theorem children_array_of_le {a : ArrayLayout} {block next i : Nat}
    (h : f.next? rootSize a block = some next) (hi : a.capacity ≤ i) :
    ((array a).children rootSize f block)[i]? =
      ((array a).children rootSize f next)[i - a.capacity]? := by
  rw [children_array_of_some h, List.getElem?_append_right (by simpa), ArrayLayout.length_places]

theorem cells_array_of_none {a : ArrayLayout} {block : Nat} (h : f.next? rootSize a block = none) :
    (array a).cells rootSize f block =
      rowCells rootSize f (a.places block) ++ a.linkCells f block := by
  simp [cells_array, File.chain_of_none h]

theorem cells_array_of_some {a : ArrayLayout} {block next : Nat}
    (h : f.next? rootSize a block = some next) :
    (array a).cells rootSize f block = rowCells rootSize f (a.places block) ++
      (.link a block next :: (array a).cells rootSize f next) := by
  obtain ⟨hext, hlink, -⟩ := File.next?_eq_some_iff.mp h
  simp [cells_array, File.chain_of_some h, ArrayLayout.linkCells, hext, hlink]

/-- An array consists of its elements and its links. -/
theorem cells_array_perm (a : ArrayLayout) (offset : Nat) :
    ((array a).cells rootSize f offset).Perm
      (rowCells rootSize f ((array a).children rootSize f offset) ++
        a.links rootSize f offset) := by
  rw [cells_array, children, rowCells, List.flatMap_assoc]
  exact (List.flatMap_append_perm ..).symm

end Layout

namespace ArrayLayout

variable {a : ArrayLayout} {block next : Nat}

theorem links_of_none (h : f.next? rootSize a block = none) :
    a.links rootSize f block = a.linkCells f block := by
  simp [links, File.chain_of_none h]

theorem links_of_some (h : f.next? rootSize a block = some next) :
    a.links rootSize f block = a.linkCells f block ++ a.links rootSize f next := by
  simp [links, File.chain_of_some h]

theorem values_of_none (h : f.next? rootSize a block = none) :
    a.values rootSize f block = rowValues rootSize f (a.places block) := by
  rw [values, Layout.children_array_of_none h]

theorem values_of_some (h : f.next? rootSize a block = some next) :
    a.values rootSize f block =
      rowValues rootSize f (a.places block) ++ a.values rootSize f next := by
  rw [values, Layout.children_array_of_some h, rowValues_append]
  rfl

theorem values_eq (rootSize : Nat) (f : File) (a : ArrayLayout) (block : Nat) :
    a.values rootSize f block = rowValues rootSize f (a.places block) ++ a.rest rootSize f block := by
  rw [rest]
  cases h : f.next? rootSize a block with
  | none => rw [values_of_none h, List.append_nil]
  | some next => exact values_of_some h

/-- Blocks are whole. -/
theorem length_values (rootSize : Nat) (f : File) (a : ArrayLayout) (block : Nat) :
    (a.values rootSize f block).length = (f.chain rootSize a block).length * a.capacity := by
  simp [values, Layout.children, List.length_flatMap, List.map_const']

theorem length_rest (rootSize : Nat) (f : File) (a : ArrayLayout) (block : Nat) :
    ∃ blocks, (a.rest rootSize f block).length = blocks * a.capacity := by
  rw [rest]
  cases f.next? rootSize a block with
  | none => exact ⟨0, (Nat.zero_mul _).symm⟩
  | some next => exact ⟨_, length_values rootSize f a next⟩

end ArrayLayout

end

end RecordFile
