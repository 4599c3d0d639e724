import RecordFile.Proofs.File.Places
import RecordFile.Proofs.Scalar.Codec

/-!
# Parts of files and how they change

A `Part` of a file has cells and a value, both computed from the file. Its cells are `Sound` if
they lie inside the file and apart from each other, no two of them link the same block, and every
link is zero or may be followed.

`Evolves` is what every operation does to the part that it works on, be it done or halted half-way:
bytes outside of the part stay as they are, links that are not zero stay, new cells lie where the
part had cells or behind the end of the old file, and the cells are sound again.

A part with a smaller part inside it is a `Hole`: as long as its other cells stay untouched, it is
what these cells and the smaller part make up. Then the larger part evolves as the smaller one does
(`Evolves.hole`), which is the frame rule that carries changes from a scalar or a chain up to the
root record.
-/

namespace RecordFile

/-- Something in a file that has a value. -/
structure Part (α : Type) where
  cells : File → List Cell
  value : File → α

/-- What lies at a place, as a part. -/
def Layout.part (rootSize : Nat) (l : Layout) (offset : Nat) : Part Value where
  cells f := l.cells rootSize f offset
  value f := l.value rootSize f offset

/-- What lies at some places, as a part. -/
def rowPart (rootSize : Nat) (row : List (Layout × Nat)) : Part (List Value) where
  cells f := rowCells rootSize f row
  value f := rowValues rootSize f row

/-- The elements of an array from the block at `block` on, as a part. -/
def ArrayLayout.part (rootSize : Nat) (a : ArrayLayout) (block : Nat) : Part (List Value) where
  cells f := (Layout.array a).cells rootSize f block
  value f := a.values rootSize f block

namespace ArrayLayout

theorem part_cells_perm (rootSize : Nat) (f : File) (a : ArrayLayout) (block : Nat) :
    ((a.part rootSize block).cells f).Perm
      (rowCells rootSize f ((Layout.array a).children rootSize f block) ++
        a.links rootSize f block) :=
  Layout.cells_array_perm a block

/-- An array reaches the links of the blocks of its chain. -/
theorem link_mem_of_mem_chain {rootSize : Nat} {f : File} {a : ArrayLayout} {start block : Nat}
    (hext : a.extent = .chained) (hblock : block ∈ f.chain rootSize a start) :
    .link a block (f.link a block) ∈ (a.part rootSize start).cells f := by
  refine (a.part_cells_perm rootSize f start).mem_iff.mpr (List.mem_append_right _ ?_)
  exact List.mem_flatMap_of_mem hblock (by simp [linkCells, hext])

theorem link_mem {rootSize : Nat} {f : File} {a : ArrayLayout} {block : Nat}
    (hext : a.extent = .chained) :
    .link a block (f.link a block) ∈ (a.part rootSize block).cells f :=
  link_mem_of_mem_chain hext (File.mem_chain_self ..)

/-- What the next block reaches, the block reaches. -/
theorem cells_subset_of_next? {rootSize : Nat} {f : File} {a : ArrayLayout} {block next : Nat}
    (h : f.next? rootSize a block = some next) :
    (a.part rootSize next).cells f ⊆ (a.part rootSize block).cells f := fun c hc => by
  show c ∈ (Layout.array a).cells rootSize f block
  rw [Layout.cells_array_of_some h]
  exact List.mem_append_right _ (List.mem_cons_of_mem _ hc)

end ArrayLayout

/-! ## Sound cells -/

namespace Cell

/-- The cell lies in the file, and a link says what the file says and may be followed. -/
def Fits (rootSize : Nat) (f : File) : Cell → Prop
  | scalar kind offset => offset + kind.width ≤ f.size
  | link a block next => a.size = a.slotsSize + linkSize ∧ block + a.size ≤ f.size ∧
    f.link a block = next ∧ (next = 0 ∨ f.Leads rootSize a block next)

instance (rootSize : Nat) (f : File) : (c : Cell) → Decidable (c.Fits rootSize f)
  | scalar _ _ => inferInstanceAs (Decidable (_ ≤ _))
  | link _ _ _ => inferInstanceAs (Decidable (_ ∧ _ ∧ _ ∧ (_ ∨ _)))

/-- The cells have no byte in common, and do not link the same block. -/
def Apart (c c' : Cell) : Prop :=
  (∀ x, c.Covers x → ¬ c'.Covers x) ∧ (c.target = c'.target → c.target = 0)

variable {rootSize : Nat} {f g : File} {c c' : Cell}

theorem Apart.symm (h : c.Apart c') : c'.Apart c :=
  ⟨fun x hx hx' => h.1 x hx' hx, fun heq => heq.trans (h.2 heq.symm)⟩

theorem Fits.lt_size (h : c.Fits rootSize f) {x : Nat} (hx : c.Covers x) : x < f.size := by
  cases c with
  | scalar kind offset => exact Nat.lt_of_lt_of_le hx.2 h
  | link a block next =>
    obtain ⟨hsize, hle, -⟩ := h
    have : x < a.linkOffset block + linkSize := hx.2
    unfold ArrayLayout.linkOffset at this
    omega

theorem Fits.target_lt (h : c.Fits rootSize f) (hne : c.target ≠ 0) : c.target < f.size := by
  cases c with
  | scalar kind offset => exact absurd rfl hne
  | link a block next =>
    obtain ⟨hsize, -, -, hzero | hleads⟩ := h
    · exact absurd hzero hne
    · have hle := hleads.2.2
      have : linkSize = 8 := rfl
      show next < f.size
      omega

/-- A link that is in order and not zero leads to the next block. -/
theorem Fits.next?_eq {a : ArrayLayout} {block : Nat}
    (h : (link a block (f.link a block)).Fits rootSize f) (hext : a.extent = .chained)
    (hne : f.link a block ≠ 0) : f.next? rootSize a block = some (f.link a block) :=
  File.next?_eq_some_iff.mpr ⟨hext, rfl, h.2.2.2.resolve_left hne⟩

/-- A link that is in order is zero where there is no next block. -/
theorem Fits.link_eq_zero {a : ArrayLayout} {block : Nat}
    (h : (link a block (f.link a block)).Fits rootSize f) (hext : a.extent = .chained)
    (hnone : f.next? rootSize a block = none) : f.link a block = 0 := by
  by_contra hne
  rw [h.next?_eq hext hne] at hnone
  cases hnone

/-- A link that leads to the next block is in order. -/
theorem fits_of_next? {a : ArrayLayout} {block next : Nat} (hsize : a.size = a.slotsSize + linkSize)
    (hle : block + a.size ≤ f.size) (h : f.next? rootSize a block = some next) :
    (link a block (f.link a block)).Fits rootSize f := by
  obtain ⟨-, rfl, hleads⟩ := File.next?_eq_some_iff.mp h
  exact ⟨hsize, hle, rfl, .inr hleads⟩

theorem Fits.congr (h : c.Fits rootSize f) (hle : f.size ≤ g.size)
    (hc : ∀ x, c.Covers x → g.byte? x = f.byte? x) : c.Fits rootSize g := by
  cases c with
  | scalar kind offset => exact Nat.le_trans h hle
  | link a block next =>
    obtain ⟨hsize, hblock, hlink, hnext⟩ := h
    refine ⟨hsize, Nat.le_trans hblock hle, ?_, hnext.imp_right fun hleads =>
      ⟨hleads.1, hleads.2.1, Nat.le_trans hleads.2.2 hle⟩⟩
    exact (File.number_congr fun x hx hlt => hc x ⟨hx, hlt⟩).trans hlink

end Cell

/-- The scalar in the cell is one that was encoded. -/
def Cell.Encoded (f : File) : Cell → Prop
  | scalar kind offset => kind.Holds (f.number offset kind.width)
  | link _ _ _ => True

theorem Cell.Encoded.congr {f g : File} {c : Cell} (h : c.Encoded f)
    (hc : ∀ x, c.Covers x → g.byte? x = f.byte? x) : c.Encoded g := by
  cases c with
  | scalar kind offset =>
    have hnumber : g.number offset kind.width = f.number offset kind.width :=
      File.number_congr fun x hx hlt => hc x ⟨hx, hlt⟩
    show kind.Holds (g.number offset kind.width)
    rw [hnumber]
    exact h
  | link a block next => trivial

/-- Cells of a file that is in order. -/
structure Sound (rootSize : Nat) (f : File) (cells : List Cell) : Prop where
  root_le : rootSize ≤ f.size
  fits : ∀ c ∈ cells, c.Fits rootSize f
  apart : cells.Pairwise Cell.Apart

/-- The bytes of the cells are in `g` what they are in `f`. -/
def Untouched (f g : File) (cells : List Cell) : Prop :=
  ∀ c ∈ cells, ∀ x, c.Covers x → g.byte? x = f.byte? x

section

variable {rootSize : Nat} {f g h : File} {cells cells' : List Cell}

theorem Sound.perm (hs : Sound rootSize f cells) (hp : cells.Perm cells') :
    Sound rootSize f cells' :=
  ⟨hs.root_le, fun c hc => hs.fits c (hp.mem_iff.mpr hc), hs.apart.perm hp Cell.Apart.symm⟩

theorem Sound.sublist (hs : Sound rootSize f cells) (h : cells'.Sublist cells) :
    Sound rootSize f cells' :=
  ⟨hs.root_le, fun c hc => hs.fits c (h.subset hc), hs.apart.sublist h⟩

theorem Sound.left (hs : Sound rootSize f (cells ++ cells')) : Sound rootSize f cells :=
  hs.sublist (List.sublist_append_left ..)

theorem Sound.right (hs : Sound rootSize f (cells ++ cells')) : Sound rootSize f cells' :=
  hs.sublist (List.sublist_append_right ..)

theorem Untouched.mono (hu : Untouched f g cells) (hsub : ∀ c ∈ cells', c ∈ cells) :
    Untouched f g cells' :=
  fun c hc => hu c (hsub c hc)

theorem Untouched.refl : Untouched f f cells := fun _ _ _ _ => rfl

end

/-! ## Evolution -/

/-- The cell is still there, but its link may have been set. -/
def Cell.KeptIn (cells : List Cell) : Cell → Prop
  | scalar kind offset => .scalar kind offset ∈ cells
  | link a block next => ∃ next', .link a block next' ∈ cells ∧ (next ≠ 0 → next' = next)

theorem Cell.KeptIn.of_mem {cells : List Cell} {c : Cell} (h : c ∈ cells) : c.KeptIn cells := by
  cases c with
  | scalar kind offset => exact h
  | link a block next => exact ⟨next, h, fun _ => rfl⟩

theorem Cell.KeptIn.mono {cells cells' : List Cell} {c : Cell} (h : c.KeptIn cells)
    (hsub : ∀ c ∈ cells, c ∈ cells') : c.KeptIn cells' := by
  cases c with
  | scalar kind offset => exact hsub _ h
  | link a block next =>
    obtain ⟨next', hmem, hnext⟩ := h
    exact ⟨next', hsub _ hmem, hnext⟩

/-- What operations on a part do to the file. -/
structure Evolves {α : Type} (rootSize : Nat) (P : Part α) (f g : File) : Prop where
  size_le : f.size ≤ g.size
  /-- Bytes outside of the part stay as they are. -/
  frame : ∀ x < f.size, (∀ c ∈ P.cells f, ¬ c.Covers x) → g.byte? x = f.byte? x
  kept : ∀ c ∈ P.cells f, c.KeptIn (P.cells g)
  /-- New cells lie behind the end of the old file. -/
  covers : ∀ c ∈ P.cells g, ∀ x < f.size, c.Covers x → ∃ c' ∈ P.cells f, c'.Covers x
  /-- New blocks lie behind the end of the old file. -/
  targets : ∀ c ∈ P.cells g, c.target ≠ 0 → c.target < f.size →
    ∃ c' ∈ P.cells f, c'.target = c.target
  sound : Sound rootSize g (P.cells g)
  /-- Nothing but encodings is written to scalars. -/
  encoded : (∀ c ∈ P.cells f, c.Encoded f) → ∀ c ∈ P.cells g, c.Encoded g

namespace Evolves

variable {α β : Type} {rootSize : Nat} {P : Part α} {f g h : File}

theorem refl (hs : Sound rootSize f (P.cells f)) : Evolves rootSize P f f where
  size_le := Nat.le_refl _
  frame _ _ _ := rfl
  kept _ hc := .of_mem hc
  covers c hc _ _ hx := ⟨c, hc, hx⟩
  targets c hc _ _ := ⟨c, hc, rfl⟩
  sound := hs
  encoded h := h

theorem trans (h₁ : Evolves rootSize P f g) (h₂ : Evolves rootSize P g h) :
    Evolves rootSize P f h where
  size_le := Nat.le_trans h₁.size_le h₂.size_le
  frame x hx hout := by
    refine (h₂.frame x (Nat.lt_of_lt_of_le hx h₁.size_le) fun c hc hcov => ?_).trans
      (h₁.frame x hx hout)
    obtain ⟨c', hc', hcov'⟩ := h₁.covers c hc x hx hcov
    exact hout c' hc' hcov'
  kept c hc := by
    cases c with
    | scalar kind offset => exact h₂.kept _ (h₁.kept _ hc)
    | link a block next =>
      obtain ⟨next₁, hmem₁, hnext₁⟩ := h₁.kept _ hc
      obtain ⟨next₂, hmem₂, hnext₂⟩ := h₂.kept _ hmem₁
      refine ⟨next₂, hmem₂, fun hne => ?_⟩
      have heq := hnext₁ hne
      exact (hnext₂ (heq ▸ hne)).trans heq
  covers c hc x hx hcov := by
    obtain ⟨c₁, hc₁, hcov₁⟩ := h₂.covers c hc x (Nat.lt_of_lt_of_le hx h₁.size_le) hcov
    exact h₁.covers c₁ hc₁ x hx hcov₁
  targets c hc hne hlt := by
    obtain ⟨c₁, hc₁, heq⟩ := h₂.targets c hc hne (Nat.lt_of_lt_of_le hlt h₁.size_le)
    rw [← heq] at hne hlt ⊢
    exact h₁.targets c₁ hc₁ hne hlt
  sound := h₂.sound
  encoded h := h₂.encoded (h₁.encoded h)

/-- What holds of a part holds of its cells, in whatever order and with whatever value. -/
theorem congr {Q : Part β} (he : Evolves rootSize P f g) (hf : (P.cells f).Perm (Q.cells f))
    (hg : (P.cells g).Perm (Q.cells g)) : Evolves rootSize Q f g where
  size_le := he.size_le
  frame x hx hout := he.frame x hx fun c hc => hout c (hf.mem_iff.mp hc)
  kept c hc := (he.kept c (hf.mem_iff.mpr hc)).mono fun c hc => hg.mem_iff.mp hc
  covers c hc x hx hcov := by
    obtain ⟨c', hc', hcov'⟩ := he.covers c (hg.mem_iff.mpr hc) x hx hcov
    exact ⟨c', hf.mem_iff.mp hc', hcov'⟩
  targets c hc hne hlt := by
    obtain ⟨c', hc', heq⟩ := he.targets c (hg.mem_iff.mpr hc) hne hlt
    exact ⟨c', hf.mem_iff.mp hc', heq⟩
  sound := he.sound.perm hg
  encoded h c hc := he.encoded (fun c hc => h c (hf.mem_iff.mp hc)) c (hg.mem_iff.mpr hc)

end Evolves

/-! ## Holes -/

/-- While the cells in `ctx` stay untouched, the part `P` is these cells and the part `M`, and its
value is given by that of `M`. -/
def Part.Hole {α β : Type} (P : Part α) (M : Part β) (f : File) (ctx : List Cell)
    (fill : β → α) : Prop :=
  ∀ g, f.size ≤ g.size → Untouched f g ctx →
    (P.cells g).Perm (ctx ++ M.cells g) ∧ P.value g = fill (M.value g)

section

variable {α β γ : Type} {rootSize : Nat} {P : Part α} {M : Part β} {N : Part γ} {f g : File}
  {ctx ctx' : List Cell} {fill : β → α} {fill' : γ → β}

theorem Part.Hole.perm (h : P.Hole M f ctx fill) : (P.cells f).Perm (ctx ++ M.cells f) :=
  (h f (Nat.le_refl _) .refl).1

theorem Part.Hole.trans (h : P.Hole M f ctx fill) (h' : M.Hole N f ctx' fill') :
    P.Hole N f (ctx ++ ctx') (fill ∘ fill') := by
  intro g hle hu
  obtain ⟨hperm, hvalue⟩ := h g hle (hu.mono fun c hc => List.mem_append_left _ hc)
  obtain ⟨hperm', hvalue'⟩ := h' g hle (hu.mono fun c hc => List.mem_append_right _ hc)
  refine ⟨?_, by rw [hvalue, hvalue', Function.comp_apply]⟩
  rw [List.append_assoc]
  exact hperm.trans (hperm'.append_left ctx)

theorem Part.Hole.sound (h : P.Hole M f ctx fill) (hs : Sound rootSize f (P.cells f)) :
    Sound rootSize f (M.cells f) :=
  (hs.perm h.perm).right

/-- What a smaller part does not have stays untouched while that part evolves. -/
theorem Evolves.untouched (he : Evolves rootSize M f g)
    (hs : Sound rootSize f (ctx ++ M.cells f)) : Untouched f g ctx := by
  intro c hc x hx
  obtain ⟨-, -, hapart⟩ := List.pairwise_append.mp hs.apart
  refine he.frame x ((hs.left.fits c hc).lt_size hx) fun c' hc' => ?_
  exact (hapart c hc c' hc').1 x hx

/-- A part evolves as a smaller part inside it does. -/
theorem Evolves.hole (hole : P.Hole M f ctx fill) (hs : Sound rootSize f (P.cells f))
    (he : Evolves rootSize M f g) : Evolves rootSize P f g := by
  have hs' := hs.perm hole.perm
  have hu := he.untouched hs'
  obtain ⟨hctx, -, hapart⟩ := List.pairwise_append.mp hs'.apart
  have hwhole : Evolves rootSize ⟨fun h => ctx ++ M.cells h, fun _ => ()⟩ f g := by
    refine ⟨he.size_le, fun x hx hout => ?_, fun c hc => ?_, fun c hc x hx hcov => ?_,
      fun c hc hne hlt => ?_, ⟨Nat.le_trans hs.root_le he.size_le, fun c hc => ?_, ?_⟩,
      fun h c hc => ?_⟩
    · exact he.frame x hx fun c hc => hout c (List.mem_append_right _ hc)
    · rcases List.mem_append.mp hc with hc | hc
      · exact .of_mem (List.mem_append_left _ hc)
      · exact (he.kept c hc).mono fun c hc => List.mem_append_right _ hc
    · rcases List.mem_append.mp hc with hc | hc
      · exact ⟨c, List.mem_append_left _ hc, hcov⟩
      · obtain ⟨c', hc', hcov'⟩ := he.covers c hc x hx hcov
        exact ⟨c', List.mem_append_right _ hc', hcov'⟩
    · rcases List.mem_append.mp hc with hc | hc
      · exact ⟨c, List.mem_append_left _ hc, rfl⟩
      · obtain ⟨c', hc', heq⟩ := he.targets c hc hne hlt
        exact ⟨c', List.mem_append_right _ hc', heq⟩
    · rcases List.mem_append.mp hc with hc | hc
      · exact (hs'.left.fits c hc).congr he.size_le (hu c hc)
      · exact he.sound.fits c hc
    · refine List.pairwise_append.mpr ⟨hctx, he.sound.apart, fun c hc c' hc' => ⟨?_, ?_⟩⟩
      · intro x hx hx'
        obtain ⟨c₁, hc₁, hx₁⟩ := he.covers c' hc' x ((hs'.left.fits c hc).lt_size hx) hx'
        exact (hapart c hc c₁ hc₁).1 x hx hx₁
      · intro heq
        by_contra hne
        have hlt := (hs'.left.fits c hc).target_lt hne
        rw [heq] at hne hlt
        obtain ⟨c₁, hc₁, heq₁⟩ := he.targets c' hc' hne hlt
        exact hne (heq.symm.trans ((hapart c hc c₁ hc₁).2 (heq.trans heq₁.symm)))
    · rcases List.mem_append.mp hc with hc | hc
      · exact (h c (List.mem_append_left _ hc)).congr (hu c hc)
      · exact he.encoded (fun c hc => h c (List.mem_append_right _ hc)) c hc
  exact hwhole.congr hole.perm.symm (hole g he.size_le hu).1.symm

/-- The value of a part after a smaller part inside it has evolved. -/
theorem Evolves.value_eq (he : Evolves rootSize M f g) (hole : P.Hole M f ctx fill)
    (hs : Sound rootSize f (P.cells f)) : P.value g = fill (M.value g) :=
  (hole g he.size_le (he.untouched (hs.perm hole.perm))).2

end

end RecordFile
