import RecordFile.Proofs.File.Blank

/-!
# Files that grow block by block

A chain grows by a block of zeros at the end of the file, which is then linked from the last block
of the chain (`File.grown`). `File.Extends f es g` says that `f` grows into `g` by the extensions
`es`, each of which finds the link that it sets zero; so the new blocks lie one after the other from
the end of `f` on, in that order, and `f` keeps all bytes but those links (`Extends.byte?_eq`).

`ArrayLayout.extensions` are the extensions that make a chain some blocks longer, and
`Layout.extensions` those that make room for an element below a place where all bytes are zero: a
chained array on the way to it gets one block for every `capacity` elements in front.
`ArrayLayout.growth` are those for an element behind the last block of a chain.
-/

namespace RecordFile

/-- One block more for a chain of blocks, linked from the block at `block`. -/
structure Extension where
  array : ArrayLayout
  block : Nat

namespace Extension

/-- The bytes by which some extensions make a file longer. -/
def bytes (es : List Extension) : Nat := (es.map (·.array.size)).sum

/-- The byte at `x` belongs to the link that is set. -/
def Covers (e : Extension) (x : Nat) : Prop :=
  e.array.linkOffset e.block ≤ x ∧ x < e.array.linkOffset e.block + linkSize

/-- The links lead to blocks that lie one after the other from `stop` on. -/
def Linked (f : File) : (stop : Nat) → List Extension → Prop
  | _, [] => True
  | stop, e :: es => f.link e.array e.block = stop ∧ Linked f (stop + e.array.size) es

end Extension

/-- The file with a block of zeros at its end, which is linked from the block at `block`. -/
def File.grown (f : File) (a : ArrayLayout) (block : Nat) : File :=
  ⟨overwrite (f.bytes ++ zeros a.size) (a.linkOffset block) (littleEndian linkSize f.size)⟩

/-- A file that grows by some extensions, one after the other. -/
inductive File.Extends : File → List Extension → File → Prop
  | refl (f : File) : Extends f [] f
  | step {f g : File} {e : Extension} {es : List Extension}
    (inside : e.array.linkOffset e.block + linkSize ≤ f.size)
    (unlinked : f.link e.array e.block = 0) (rest : Extends (f.grown e.array e.block) es g) :
    Extends f (e :: es) g

/-- The extensions that make a chain `count` blocks longer behind the block at `block`, in a file
that ends at `stop`. -/
def ArrayLayout.extensions (a : ArrayLayout) : (block stop count : Nat) → List Extension
  | _, _, 0 => []
  | block, stop, count + 1 => ⟨a, block⟩ :: a.extensions stop (stop + a.size) count

/-- The last block of the chain after these extensions. -/
def ArrayLayout.lastBlock (a : ArrayLayout) : (block stop count : Nat) → Nat
  | block, _, 0 => block
  | _, stop, count + 1 => a.lastBlock stop (stop + a.size) count

/-- How many blocks an element lies behind the first one. -/
def ArrayLayout.blocksBefore (a : ArrayLayout) (index : Nat) : Nat :=
  match a.extent with
  | .fixed => 0
  | .chained => index / a.capacity

/-- The slot of an element in its block. -/
def ArrayLayout.slot (a : ArrayLayout) (index : Nat) : Nat :=
  match a.extent with
  | .fixed => index
  | .chained => index % a.capacity

/-- The extensions that make room for what some steps lead to, from a blank place at `offset`, in a
file that ends at `stop`. -/
def Layout.extensions : Layout → (offset stop : Nat) → List UInt64 → List Extension
  | _, _, _, [] => []
  | .scalar _, _, _, _ :: _ => []
  | .record r, offset, stop, step :: rest =>
    match r.fields[step.toNat]? with
    | none => []
    | some f => f.layout.extensions (offset + f.offset) stop rest
  | .array a, offset, stop, step :: rest =>
    let count := a.blocksBefore step.toNat
    a.extensions offset stop count ++ a.element.extensions
      (a.lastBlock offset stop count + a.slot step.toNat * a.element.size) (stop + count * a.size)
      rest

/-- The extensions that make room for the element `index` of an array behind the last one of its
`blocks` blocks, and for what some steps lead to below it, in a file that ends at `stop`. -/
def ArrayLayout.growth (a : ArrayLayout) (last stop blocks index : Nat) (below : List UInt64) :
    List Extension :=
  let count := index / a.capacity + 1 - blocks
  a.extensions last stop count ++ a.element.extensions
    (a.lastBlock last stop count + index % a.capacity * a.element.size) (stop + count * a.size) below

namespace Extension

@[simp] theorem bytes_nil : bytes [] = 0 := rfl

@[simp] theorem bytes_cons (e : Extension) (es : List Extension) :
    bytes (e :: es) = e.array.size + bytes es := rfl

@[simp] theorem bytes_append (es es' : List Extension) :
    bytes (es ++ es') = bytes es + bytes es' := by
  simp [bytes]

theorem Linked.append {f : File} {stop : Nat} {es es' : List Extension} (h : Linked f stop es)
    (h' : Linked f (stop + bytes es) es') : Linked f stop (es ++ es') := by
  induction es generalizing stop with
  | nil => exact h'
  | cons e es ih =>
    rw [bytes_cons, ← Nat.add_assoc] at h'
    exact ⟨h.1, ih h.2 h'⟩

theorem Linked.congr {f g : File} {stop : Nat} {es : List Extension} (h : Linked f stop es)
    (hfg : ∀ e ∈ es, ∀ x, e.Covers x → g.byte? x = f.byte? x) : Linked g stop es := by
  induction es generalizing stop with
  | nil => trivial
  | cons e es ih =>
    obtain ⟨hfirst, hrest⟩ := List.forall_mem_cons.mp hfg
    exact ⟨(File.number_congr fun x hx hlt => hfirst x ⟨hx, hlt⟩).trans h.1, ih h.2 hrest⟩

end Extension

namespace ArrayLayout

variable {a : ArrayLayout} {block stop : Nat}

theorem bytes_extensions (count : Nat) :
    Extension.bytes (a.extensions block stop count) = count * a.size := by
  induction count generalizing block stop with
  | zero => simp [extensions]
  | succ count ih => rw [extensions, Extension.bytes_cons, ih, Nat.succ_mul, Nat.add_comm]

/-- Every block but the first one of a chain lies behind the end of the file. -/
theorem lastBlock_cases (a : ArrayLayout) (block stop count : Nat) :
    a.lastBlock block stop count = block ∨ stop ≤ a.lastBlock block stop count := by
  induction count generalizing block stop with
  | zero => exact .inl rfl
  | succ count ih =>
    rw [lastBlock]
    rcases ih stop (stop + a.size) with heq | hle
    · exact .inr (Nat.le_of_eq heq.symm)
    · exact .inr (Nat.le_trans (Nat.le_add_right ..) hle)

/-- After an extension, the last block of the chain lies behind the end of the file. -/
theorem le_lastBlock (a : ArrayLayout) (block stop : Nat) {count : Nat} (hpos : 0 < count) :
    stop ≤ a.lastBlock block stop count := by
  obtain ⟨count, rfl⟩ := Nat.exists_eq_add_one.mpr hpos
  have := a.lastBlock_cases stop (stop + a.size) count
  rw [lastBlock]
  omega

theorem slot_lt {index : Nat} (hindex : ¬ (a.extent = .fixed ∧ a.capacity ≤ index)) :
    a.slot index < a.capacity := by
  unfold slot
  cases hext : a.extent with
  | fixed => exact Nat.lt_of_not_le fun hle => hindex ⟨hext, hle⟩
  | chained => exact Nat.mod_lt _ a.capacity_pos

end ArrayLayout

namespace File

variable {f g h : File} {a : ArrayLayout} {block : Nat} {es es' : List Extension}

theorem size_grown (hle : a.linkOffset block + linkSize ≤ f.size) :
    (f.grown a block).size = f.size + a.size := size_linked hle

/-- A file that grows keeps all bytes but those of the link. -/
theorem byte?_grown_of_lt (hle : a.linkOffset block + linkSize ≤ f.size) {x : Nat} (hx : x < f.size)
    (hout : ¬ Extension.Covers ⟨a, block⟩ x) : (f.grown a block).byte? x = f.byte? x :=
  byte?_linked_of_lt hle hx hout

/-- The new block is blank. -/
theorem blank_grown (hle : a.linkOffset block + linkSize ≤ f.size) :
    (f.grown a block).Blank f.size a.size := blank_linked hle

theorem link_grown (hle : a.linkOffset block + linkSize ≤ f.size) (hlt : f.size < wordLimit) :
    (f.grown a block).link a block = f.size := (linked hle hlt rfl).2.1

namespace Extends

theorem size_eq (he : f.Extends es g) : g.size = f.size + Extension.bytes es := by
  induction he with
  | refl f => rfl
  | step inside _ _ ih => rw [ih, size_grown inside, Extension.bytes_cons, Nat.add_assoc]

theorem trans (he : f.Extends es g) (he' : g.Extends es' h) : f.Extends (es ++ es') h := by
  induction he with
  | refl f => exact he'
  | step inside unlinked _ ih => exact .step inside unlinked (ih he')

/-- The links that are set lie in the file. -/
theorem lt_size (he : f.Extends es g) {e : Extension} (hmem : e ∈ es) {x : Nat} (hx : e.Covers x) :
    x < g.size := by
  have hsize := he.size_eq
  induction he with
  | refl f => cases hmem
  | step inside _ rest ih =>
    rcases List.mem_cons.mp hmem with rfl | hmem
    · exact Nat.lt_of_lt_of_le hx.2 (by omega)
    · exact ih hmem rest.size_eq

/-- A file that grows keeps all bytes but those of the links that are set. -/
theorem byte?_eq (he : f.Extends es g) {x : Nat} (hx : x < f.size)
    (hout : ∀ e ∈ es, ¬ e.Covers x) : g.byte? x = f.byte? x := by
  induction he with
  | refl f => rfl
  | step inside _ _ ih =>
    obtain ⟨hfirst, hrest⟩ := List.forall_mem_cons.mp hout
    have hsize := size_grown inside
    exact (ih (by omega) hrest).trans (byte?_grown_of_lt inside hx hfirst)

/-- The new blocks are zero but for the links that are set. -/
theorem byte?_eq_zero (he : f.Extends es g) {x : Nat} (hle : f.size ≤ x) (hlt : x < g.size)
    (hout : ∀ e ∈ es, ¬ e.Covers x) : g.byte? x = some 0 := by
  induction he with
  | refl f => exact absurd hlt (Nat.not_lt_of_le hle)
  | @step f g e es inside _ rest ih =>
    obtain ⟨-, hrest⟩ := List.forall_mem_cons.mp hout
    rcases Nat.lt_or_ge x (f.grown e.array e.block).size with hnew | hold
    · have hsize := size_grown inside
      exact (rest.byte?_eq hnew hrest).trans (blank_grown inside x hle (by omega))
    · exact ih hold hlt hrest

end Extends

end File

end RecordFile
