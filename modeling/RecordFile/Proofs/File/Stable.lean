import RecordFile.Path
import RecordFile.Proofs.File.Part

/-!
# Places that stay

A link that is not zero stays, so chains only get longer (`LinksKept.chain_prefix`), and what lies
at the end of some steps lies there for good (`LinksKept.placeAt_eq`). For the links that a place
has to keep there is `Evolves.linksKept`.

`Layout.placeAt_le` says that places lie in the file, whatever it holds.
-/

namespace RecordFile

/-- The file did not get shorter, and links among the cells that are not zero stay. -/
structure LinksKept (f g : File) (cells : List Cell) : Prop where
  size_le : f.size ≤ g.size
  link_eq : ∀ a block next, .link a block next ∈ cells → next ≠ 0 → g.link a block = next

section

variable {α : Type} {rootSize : Nat} {f g : File} {cells cells' : List Cell}

/-- Links that are not zero are kept by every operation. -/
theorem Evolves.linksKept {P : Part α} (h : Evolves rootSize P f g) : LinksKept f g (P.cells f) where
  size_le := h.size_le
  link_eq a block next hmem hne := by
    obtain ⟨next', hmem', hnext⟩ := h.kept _ hmem
    obtain ⟨-, -, hlink, -⟩ := h.sound.fits _ hmem'
    exact hlink.trans (hnext hne)

namespace LinksKept

theorem mono (h : LinksKept f g cells) (hsub : ∀ c ∈ cells', c ∈ cells) : LinksKept f g cells' :=
  ⟨h.size_le, fun a block next hmem => h.link_eq a block next (hsub _ hmem)⟩

variable {a : ArrayLayout} {block next : Nat}

theorem next?_eq (h : LinksKept f g (a.linkCells f block))
    (hnext : f.next? rootSize a block = some next) : g.next? rootSize a block = some next := by
  obtain ⟨hext, hlink, hleads⟩ := File.next?_eq_some_iff.mp hnext
  refine File.next?_eq_some_iff.mpr ⟨hext, h.link_eq a block next ?_ hleads.ne_zero, hleads.1,
    hleads.2.1, Nat.le_trans hleads.2.2 h.size_le⟩
  simp [ArrayLayout.linkCells, hext, hlink]

/-- Chains only get longer. -/
theorem chain_prefix (h : LinksKept f g (a.links rootSize f block)) :
    f.chain rootSize a block <+: g.chain rootSize a block := by
  induction block using File.chain_induct f rootSize a with
  | stop block hnext =>
    rw [File.chain_of_none hnext]
    cases hnext' : g.next? rootSize a block with
    | none => rw [File.chain_of_none hnext']
    | some next => exact File.chain_of_some hnext' ▸ List.prefix_append [block] _
  | step block next hnext ih =>
    rw [ArrayLayout.links_of_some hnext] at h
    have hnext' := (h.mono fun c hc => List.mem_append_left _ hc).next?_eq hnext
    rw [File.chain_of_some hnext, File.chain_of_some hnext']
    exact (List.prefix_cons_inj block).mpr (ih (h.mono fun c hc => List.mem_append_right _ hc))

/-- The places below a place stay where they are. -/
theorem children_prefix {l : Layout} {offset : Nat}
    (h : LinksKept f g (l.cells rootSize f offset)) :
    l.children rootSize f offset <+: l.children rootSize g offset := by
  cases l with
  | scalar kind => exact List.prefix_rfl
  | record r => exact List.prefix_rfl
  | array a =>
    have hlinks : LinksKept f g (a.links rootSize f offset) :=
      h.mono fun c hc => (Layout.cells_array_perm a offset).mem_iff.mpr
        (List.mem_append_right _ hc)
    obtain ⟨more, hmore⟩ := hlinks.chain_prefix
    rw [Layout.children, Layout.children, ← hmore, List.flatMap_append]
    exact List.prefix_append _ _

end LinksKept

/-- The cells of a place are cells of what it is a part of. -/
theorem Layout.cells_of_mem_children {l : Layout} {offset : Nat} {p : Layout × Nat}
    (hp : p ∈ l.children rootSize f offset) :
    ∀ c ∈ p.1.cells rootSize f p.2, c ∈ l.cells rootSize f offset := by
  intro c hc
  have hrow : c ∈ rowCells rootSize f (l.children rootSize f offset) :=
    List.mem_flatMap.mpr ⟨p, hp, hc⟩
  cases l with
  | scalar kind => cases hp
  | record r => exact Layout.cells_record r offset ▸ hrow
  | array a => exact (Layout.cells_array_perm a offset).mem_iff.mpr (List.mem_append_left _ hrow)

theorem Layout.cells_of_placeAt {l : Layout} {offset : Nat} {steps : List UInt64} {p : Layout × Nat}
    (hp : l.placeAt rootSize f offset steps = some p) :
    ∀ c ∈ p.1.cells rootSize f p.2, c ∈ l.cells rootSize f offset := by
  induction steps generalizing l offset with
  | nil =>
    obtain rfl := Option.some.inj hp
    exact fun _ hc => hc
  | cons step rest ih =>
    obtain ⟨child, hchild, hrest⟩ := placeAt_cons_eq_some.mp hp
    exact fun c hc => cells_of_mem_children (List.mem_of_getElem? hchild) c (ih hrest c hc)

/-- A place at the end of some steps stays there. -/
theorem LinksKept.placeAt_eq {l : Layout} {offset : Nat} {steps : List UInt64} {p : Layout × Nat}
    (h : LinksKept f g (l.cells rootSize f offset))
    (hp : l.placeAt rootSize f offset steps = some p) :
    l.placeAt rootSize g offset steps = some p := by
  induction steps generalizing l offset with
  | nil => exact hp
  | cons step rest ih =>
    obtain ⟨child, hchild, hrest⟩ := Layout.placeAt_cons_eq_some.mp hp
    obtain ⟨more, hmore⟩ := h.children_prefix
    have hlt := (List.getElem?_eq_some_iff.mp hchild).1
    rw [Layout.placeAt, ← hmore, List.getElem?_append_left hlt, hchild]
    exact ih (h.mono (Layout.cells_of_mem_children (List.mem_of_getElem? hchild))) hrest

end

/-! ## Places lie in the file -/

section

variable {rootSize : Nat} {f : File}

/-- Blocks lie in the file. -/
theorem ArrayLayout.block_le {a : ArrayLayout} {block : Nat} (hle : block + a.size ≤ f.size) :
    ∀ b ∈ f.chain rootSize a block, b + a.size ≤ f.size := by
  induction block using File.chain_induct f rootSize a with
  | stop block h =>
    rw [File.chain_of_none h]
    exact fun b hb => List.mem_singleton.mp hb ▸ hle
  | step block next h ih =>
    obtain ⟨-, -, hleads⟩ := File.next?_eq_some_iff.mp h
    rw [File.chain_of_some h]
    exact List.forall_mem_cons.mpr ⟨hle, ih hleads.2.2⟩

theorem ArrayLayout.places_le {a : ArrayLayout} (own : a.WellFormed) {block : Nat} :
    ∀ p ∈ a.places block, p.2 + p.1.size ≤ block + a.size := fun p hp => by
  have := ((a.places_packed block).le_of_mem hp).2
  have := own.slotsSize_le
  omega

theorem Layout.children_le {l : Layout} (hw : l.WellFormed) {offset : Nat}
    (hle : offset + l.size ≤ f.size) :
    ∀ p ∈ l.children rootSize f offset, p.2 + p.1.size ≤ f.size := by
  intro p hp
  cases hw with
  | scalar kind => cases hp
  | record own _ => exact Nat.le_trans ((own.places_packed offset).le_of_mem hp).2 hle
  | array own _ =>
    obtain ⟨b, hb, hp⟩ := List.mem_flatMap.mp hp
    exact Nat.le_trans (ArrayLayout.places_le own p hp) (ArrayLayout.block_le hle b hb)

theorem Layout.children_wellFormed {l : Layout} (hw : l.WellFormed) {offset : Nat} :
    ∀ p ∈ l.children rootSize f offset, p.1.WellFormed := by
  intro p hp
  cases hw with
  | scalar kind => cases hp
  | record _ fields =>
    obtain ⟨field, hfield, rfl⟩ := List.mem_map.mp hp
    exact fields field hfield
  | array _ element =>
    obtain ⟨b, -, hp⟩ := List.mem_flatMap.mp hp
    obtain ⟨i, -, rfl⟩ := List.mem_map.mp hp
    exact element

/-- The place at the end of some steps lies in the file. -/
theorem Layout.placeAt_le {l : Layout} (hw : l.WellFormed) {offset : Nat}
    (hle : offset + l.size ≤ f.size) {steps : List UInt64} {p : Layout × Nat}
    (hp : l.placeAt rootSize f offset steps = some p) :
    p.1.WellFormed ∧ p.2 + p.1.size ≤ f.size := by
  induction steps generalizing l offset with
  | nil =>
    obtain rfl := Option.some.inj hp
    exact ⟨hw, hle⟩
  | cons step rest ih =>
    obtain ⟨child, hchild, hp⟩ := Layout.placeAt_cons_eq_some.mp hp
    have hmem := List.mem_of_getElem? hchild
    exact ih (children_wellFormed hw child hmem) (children_le hw hle child hmem) hp

/-- The type at the end of some steps is the one that they resolve to. -/
theorem Layout.descend_of_placeAt {l : Layout} {offset : Nat} {path : Path} {position : Nat}
    {steps : List UInt64} {p : Layout × Nat}
    (hp : l.placeAt rootSize f offset steps = some p) : l.descend path position steps = .ok p.1 := by
  induction steps generalizing l offset position with
  | nil =>
    obtain rfl := Option.some.inj hp
    rfl
  | cons step rest ih =>
    obtain ⟨child, hchild, hrest⟩ := placeAt_cons_eq_some.mp hp
    cases l with
    | scalar kind => cases hchild
    | record r =>
      simp only [children, RecordLayout.places, List.getElem?_map, Option.map_eq_some_iff]
        at hchild
      obtain ⟨field, hfield, rfl⟩ := hchild
      rw [descend_record_of_some hfield]
      exact ih hrest
    | array a =>
      have hlayout := layout_of_mem_children (List.mem_of_getElem? hchild)
      have hindex : ¬ (a.extent = .fixed ∧ a.capacity ≤ step.toNat) := fun h => by
        obtain ⟨hext, hle⟩ := h
        rw [children_array_of_none (File.next?_of_fixed hext),
          List.getElem?_eq_none (by simpa using hle)] at hchild
        cases hchild
      rw [descend_array hindex, ← hlayout]
      exact ih hrest

end

end RecordFile
