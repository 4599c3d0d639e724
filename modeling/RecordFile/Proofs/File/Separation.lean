import RecordFile.Proofs.File.Stable

/-!
# Places that have no byte in common

The cells of a place cover all of its bytes (`Layout.exists_covers`): the parts of a record and the
slots of a block lie one after the other, and a block ends with its link. So places whose cells are
apart have no byte in common.

Two paths that lead to different places, neither inside the other, part at some step. There they go on
in two places of one row, whose cells are apart if the file is in order (`Layout.apart_of_placeAt`).
-/

namespace RecordFile

variable {rootSize : Nat} {f : File}

/-! ## Every byte is that of a cell -/

/-- A byte of a row is a byte of one of its places. -/
theorem RowPacked.exists_mem {start stop x : Nat} {row : List (Layout × Nat)}
    (h : RowPacked start row stop) (hle : start ≤ x) (hlt : x < stop) :
    ∃ p ∈ row, p.2 ≤ x ∧ x < p.2 + p.1.size := by
  induction row generalizing start with
  | nil =>
    obtain rfl : start = stop := h
    omega
  | cons p row ih =>
    obtain ⟨rfl, h⟩ := h
    by_cases hx : x < p.2 + p.1.size
    · exact ⟨p, List.mem_cons_self, hle, hx⟩
    · obtain ⟨q, hq, hin⟩ := ih h (Nat.le_of_not_lt hx)
      exact ⟨q, List.mem_cons_of_mem p hq, hin⟩

/-- The cells of a well-formed place cover all the bytes that it takes up. -/
theorem Layout.exists_covers {l : Layout} (hw : l.WellFormed) {offset x : Nat} (hle : offset ≤ x)
    (hlt : x < offset + l.size) : ∃ c ∈ l.cells rootSize f offset, c.Covers x := by
  induction hw generalizing offset with
  | scalar kind => exact ⟨.scalar kind offset, List.mem_singleton_self _, hle, hlt⟩
  | @record r own _ ih =>
    obtain ⟨p, hp, hin, hend⟩ := (own.places_packed offset).exists_mem hle hlt
    obtain ⟨field, hfield, rfl⟩ := List.mem_map.mp hp
    obtain ⟨c, hc, hcovers⟩ := ih field hfield hin hend
    exact ⟨c, cells_of_mem_children hp c hc, hcovers⟩
  | @array a own _ ih =>
    by_cases hslots : x < offset + a.slotsSize
    · obtain ⟨p, hp, hin, hend⟩ := (a.places_packed offset).exists_mem hle hslots
      have hchild : p ∈ (array a).children rootSize f offset :=
        List.mem_flatMap.mpr ⟨offset, File.mem_chain_self f rootSize a offset, hp⟩
      obtain ⟨i, -, rfl⟩ := List.mem_map.mp hp
      obtain ⟨c, hc, hcovers⟩ := ih hin hend
      exact ⟨c, cells_of_mem_children hchild c hc, hcovers⟩
    · have hx : x < offset + a.size := hlt
      cases hext : a.extent with
      | fixed =>
        rw [own.size_of_fixed hext] at hx
        exact absurd hx hslots
      | chained =>
        rw [own.size_of_chained hext] at hx
        refine ⟨_, ArrayLayout.link_mem hext, Nat.le_of_not_lt hslots, ?_⟩
        show x < a.linkOffset offset + linkSize
        unfold ArrayLayout.linkOffset
        omega

/-! ## Paths that part -/

/-- The cells of the places below a sound place are sound. -/
theorem Sound.children {l : Layout} {offset : Nat}
    (hs : Sound rootSize f (l.cells rootSize f offset)) :
    Sound rootSize f (rowCells rootSize f (l.children rootSize f offset)) := by
  cases l with
  | scalar kind => exact ⟨hs.root_le, nofun, .nil⟩
  | record r =>
    rw [Layout.cells_record] at hs
    exact hs
  | array a => exact (hs.perm (Layout.cells_array_perm a offset)).left

variable {row : List (Layout × Nat)}

theorem Sound.of_mem_row (hs : Sound rootSize f (rowCells rootSize f row)) {p : Layout × Nat}
    (hp : p ∈ row) : Sound rootSize f (p.1.cells rootSize f p.2) where
  root_le := hs.root_le
  fits c hc := hs.fits c (List.mem_flatMap.mpr ⟨p, hp, hc⟩)
  apart := (List.pairwise_flatMap.mp hs.apart).1 p hp

/-- The cells of two places of a sound row are apart. -/
theorem Sound.apart_of_ne (hs : Sound rootSize f (rowCells rootSize f row)) {i j : Nat}
    {p q : Layout × Nat} (hp : row[i]? = some p) (hq : row[j]? = some q) (hne : i ≠ j) :
    ∀ c ∈ p.1.cells rootSize f p.2, ∀ c' ∈ q.1.cells rootSize f q.2, c.Apart c' := by
  obtain ⟨hi, rfl⟩ := List.getElem?_eq_some_iff.mp hp
  obtain ⟨hj, rfl⟩ := List.getElem?_eq_some_iff.mp hq
  have hrow := List.pairwise_iff_getElem.mp (List.pairwise_flatMap.mp hs.apart).2
  rcases Nat.lt_or_gt_of_ne hne with hlt | hlt
  · exact hrow i j hi hj hlt
  · exact fun c hc c' hc' => (hrow j i hj hi hlt c' hc' c hc).symm

/-- The places that two paths lead to are apart, unless one of the paths goes on from the other. -/
theorem Layout.apart_of_placeAt {l : Layout} {offset : Nat} {steps steps' : List UInt64}
    {p q : Layout × Nat} (hs : Sound rootSize f (l.cells rootSize f offset))
    (hp : l.placeAt rootSize f offset steps = some p)
    (hq : l.placeAt rootSize f offset steps' = some q) (h : Diverge steps steps') :
    ∀ c ∈ p.1.cells rootSize f p.2, ∀ c' ∈ q.1.cells rootSize f q.2, c.Apart c' := by
  induction steps generalizing l offset steps' with
  | nil => exact absurd h Diverge.not_nil_left
  | cons step rest ih =>
    cases steps' with
    | nil => exact absurd h Diverge.not_nil_right
    | cons step' rest' =>
      obtain ⟨child, hchild, hrest⟩ := placeAt_cons_eq_some.mp hp
      obtain ⟨child', hchild', hrest'⟩ := placeAt_cons_eq_some.mp hq
      by_cases hstep : step = step'
      · subst hstep
        obtain rfl := Option.some.inj (hchild.symm.trans hchild')
        have hbelow : Sound rootSize f (child.1.cells rootSize f child.2) :=
          hs.children.of_mem_row (List.mem_of_getElem? hchild)
        exact ih hbelow hrest hrest' h.tail
      · have hne : step.toNat ≠ step'.toNat := fun h => hstep (UInt64.toNat_inj.mp h)
        exact fun c hc c' hc' => hs.children.apart_of_ne hchild hchild' hne c
          (cells_of_placeAt hrest c hc) c' (cells_of_placeAt hrest' c' hc')

end RecordFile
