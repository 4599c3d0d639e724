import RecordFile.Proofs.Drift
import RecordFile.Proofs.File.Stable

/-!
# The parts of records, arrays and paths

What lies at a place stays the same, with the blocks it reaches, while its own cells do
(`Layout.WellFormed.steady`). So a place is a hole in whatever surrounds it:

- `rowPart_hole`: some places in a row of places,
- `ArrayLayout.hole_row`: some elements in an array,
- `ArrayLayout.hole_next`: the blocks from the next one on in those from a block on,
- `Layout.placeAt_hole`: the place at the end of some steps.
-/

namespace RecordFile

open Drift

/-- The part stays the same while its cells do. -/
def Part.Steady {α : Type} (rootSize : Nat) (P : Part α) : Prop :=
  ∀ f g : File, (∀ c ∈ P.cells f, c.Fits rootSize f) → f.size ≤ g.size →
    Untouched f g (P.cells f) → P.cells g = P.cells f ∧ P.value g = P.value f

variable {rootSize : Nat} {f g : File}

/-! ## Chains -/

namespace ArrayLayout

variable {a : ArrayLayout} {block next : Nat}

/-- A link that stays leads to the same block. -/
theorem next?_congr (hfit : ∀ c ∈ a.linkCells f block, c.Fits rootSize f) (hle : f.size ≤ g.size)
    (hu : Untouched f g (a.linkCells f block)) :
    g.next? rootSize a block = f.next? rootSize a block ∧
      a.linkCells g block = a.linkCells f block := by
  cases hext : a.extent with
  | fixed => simp [File.next?_of_fixed hext, linkCells, hext]
  | chained =>
    simp only [linkCells, hext, List.forall_mem_singleton, Untouched] at hfit hu
    have hlink : g.link a block = f.link a block :=
      File.number_congr fun x hx hlt => hu x ⟨hx, hlt⟩
    refine ⟨?_, by simp [linkCells, hext, hlink]⟩
    obtain ⟨-, -, -, hzero | hleads⟩ := hfit
    · rw [File.next?_of_zero hzero, File.next?_of_zero (hlink.trans hzero)]
    · have hleads' : g.Leads rootSize a block (f.link a block) :=
        ⟨hleads.1, hleads.2.1, Nat.le_trans hleads.2.2 hle⟩
      simp only [File.next?, hlink, hleads, hleads']

/-- Links that stay lead along the same chain. -/
theorem chain_congr (hfit : ∀ c ∈ a.links rootSize f block, c.Fits rootSize f)
    (hle : f.size ≤ g.size) (hu : Untouched f g (a.links rootSize f block)) :
    g.chain rootSize a block = f.chain rootSize a block ∧
      a.links rootSize g block = a.links rootSize f block := by
  induction block using File.chain_induct f rootSize a with
  | stop block h =>
    rw [links_of_none h] at hfit hu ⊢
    obtain ⟨hnext, hlinks⟩ := next?_congr hfit hle hu
    rw [h] at hnext
    rw [links_of_none hnext, File.chain_of_none hnext, File.chain_of_none h, hlinks]
    exact ⟨rfl, rfl⟩
  | step block next h ih =>
    rw [links_of_some h] at hfit hu ⊢
    obtain ⟨hnext, hlinks⟩ := next?_congr (fun c hc => hfit c (List.mem_append_left _ hc)) hle
      (hu.mono fun c hc => List.mem_append_left _ hc)
    rw [h] at hnext
    obtain ⟨hchain, hrest⟩ := ih (fun c hc => hfit c (List.mem_append_right _ hc))
      (hu.mono fun c hc => List.mem_append_right _ hc)
    rw [links_of_some hnext, File.chain_of_some hnext, File.chain_of_some h, hlinks, hchain, hrest]
    exact ⟨rfl, rfl⟩

end ArrayLayout

/-! ## Steadiness -/

theorem rowPart_steady {row : List (Layout × Nat)}
    (h : ∀ p ∈ row, (p.1.part rootSize p.2).Steady rootSize) :
    (rowPart rootSize row).Steady rootSize := by
  intro f g hfit hle hu
  induction row with
  | nil => exact ⟨rfl, rfl⟩
  | cons p row ih =>
    simp only [rowPart, rowCells_cons, rowValues_cons] at hfit hu ih ⊢
    obtain ⟨hp, hrow⟩ := List.forall_mem_cons.mp h
    obtain ⟨hcells, hvalue⟩ := hp f g (fun c hc => hfit c (List.mem_append_left _ hc)) hle
      (hu.mono fun c hc => List.mem_append_left _ hc)
    obtain ⟨hcells', hvalue'⟩ := ih hrow (fun c hc => hfit c (List.mem_append_right _ hc))
      (hu.mono fun c hc => List.mem_append_right _ hc)
    simp only [Layout.part] at hcells hvalue
    simp [hcells, hvalue, hcells', hvalue']

theorem ArrayLayout.part_steady {a : ArrayLayout}
    (h : ∀ offset, (a.element.part rootSize offset).Steady rootSize) (block : Nat) :
    (a.part rootSize block).Steady rootSize := by
  intro f g hfit hle hu
  have hperm := a.part_cells_perm rootSize f block
  have hlinks : ∀ c ∈ a.links rootSize f block, c ∈ (a.part rootSize block).cells f :=
    fun c hc => hperm.mem_iff.mpr (List.mem_append_right _ hc)
  have hrow : ∀ c ∈ rowCells rootSize f ((Layout.array a).children rootSize f block),
      c ∈ (a.part rootSize block).cells f :=
    fun c hc => hperm.mem_iff.mpr (List.mem_append_left _ hc)
  obtain ⟨hchain, -⟩ := chain_congr (fun c hc => hfit c (hlinks c hc)) hle (hu.mono hlinks)
  have hsteady : (rowPart rootSize ((Layout.array a).children rootSize f block)).Steady
      rootSize := by
    refine rowPart_steady fun p hp => ?_
    obtain ⟨b, -, hp⟩ := List.mem_flatMap.mp hp
    obtain ⟨i, -, rfl⟩ := List.mem_map.mp hp
    exact h _
  obtain ⟨-, hvalues⟩ := hsteady f g (fun c hc => hfit c (hrow c hc)) hle (hu.mono hrow)
  refine ⟨?_, ?_⟩
  · simp only [part, Layout.cells_array, hchain] at hfit hu ⊢
    refine List.flatMap_congr fun b hb => ?_
    have hsub : ∀ c ∈ rowCells rootSize f (a.places b) ++ a.linkCells f b,
        c ∈ (f.chain rootSize a block).flatMap fun b =>
          rowCells rootSize f (a.places b) ++ a.linkCells f b :=
      fun c hc => List.mem_flatMap_of_mem hb hc
    have hplaces : (rowPart rootSize (a.places b)).Steady rootSize := by
      refine rowPart_steady fun p hp => ?_
      obtain ⟨i, -, rfl⟩ := List.mem_map.mp hp
      exact h _
    have hfit' : ∀ c ∈ a.linkCells f b, c.Fits rootSize f :=
      fun c hc => hfit c (hsub c (List.mem_append_right _ hc))
    rw [(next?_congr hfit' hle (hu.mono fun c hc => hsub c (List.mem_append_right _ hc))).2]
    congr 1
    exact (hplaces f g (fun c hc => hfit c (hsub c (List.mem_append_left _ hc))) hle
      (hu.mono fun c hc => hsub c (List.mem_append_left _ hc))).1
  · simp only [part, values, Layout.children, hchain] at hvalues ⊢
    exact hvalues

/-- What lies at a place stays the same while its cells do. -/
theorem Layout.WellFormed.steady {l : Layout} (hw : l.WellFormed) (offset : Nat) :
    (l.part rootSize offset).Steady rootSize := by
  induction hw generalizing offset with
  | scalar kind =>
    intro f g _ _ hu
    refine ⟨rfl, congrArg kind.ofDigits (File.number_congr fun x hx hlt => ?_)⟩
    exact hu (.scalar kind offset) (List.mem_singleton_self _) x ⟨hx, hlt⟩
  | @record r _ _ ih =>
    intro f g hfit hle hu
    simp only [part, cells_record, value_record] at hfit hu ⊢
    have hsteady : (rowPart rootSize (r.places offset)).Steady rootSize := by
      refine rowPart_steady fun p hp => ?_
      obtain ⟨field, hfield, rfl⟩ := List.mem_map.mp hp
      exact ih field hfield _
    obtain ⟨hcells, hvalues⟩ := hsteady f g hfit hle hu
    exact ⟨hcells, congrArg (fun vs => Value.record (List.zip _ vs)) hvalues⟩
  | @array a _ _ ih =>
    intro f g hfit hle hu
    obtain ⟨hcells, hvalues⟩ := ArrayLayout.part_steady ih offset f g hfit hle hu
    refine ⟨hcells, ?_⟩
    simp only [part, value_array]
    exact congrArg Value.array hvalues

theorem rowPart_steady_of_wellFormed (rootSize : Nat) {row : List (Layout × Nat)}
    (hw : ∀ p ∈ row, p.1.WellFormed) : (rowPart rootSize row).Steady rootSize :=
  rowPart_steady fun p hp => (hw p hp).steady p.2

theorem ArrayLayout.part_steady_of_wellFormed (rootSize : Nat) {a : ArrayLayout}
    (hw : a.element.WellFormed) (block : Nat) : (a.part rootSize block).Steady rootSize :=
  part_steady (fun offset => hw.steady offset) block

theorem ArrayLayout.children_wellFormed (rootSize : Nat) (f : File) {a : ArrayLayout}
    (hw : a.element.WellFormed) (block : Nat) :
    ∀ p ∈ (Layout.array a).children rootSize f block, p.1.WellFormed := by
  intro p hp
  obtain ⟨b, -, hp⟩ := List.mem_flatMap.mp hp
  exact a.forall_places hw b p hp

/-! ## Holes -/

theorem append_subset_surround {β : Type} (pre mid post : List β) :
    pre ++ post ⊆ pre ++ mid ++ post := by
  intro b hb
  rcases List.mem_append.mp hb with hb | hb
  · exact List.mem_append_left _ (List.mem_append_left _ hb)
  · exact List.mem_append_right _ hb

/-- Some places in a row. -/
theorem rowPart_hole (mid : List (Layout × Nat)) {pre post : List (Layout × Nat)}
    (hw : ∀ p ∈ pre ++ post, p.1.WellFormed)
    (hfit : ∀ c ∈ rowCells rootSize f (pre ++ post), c.Fits rootSize f) :
    (rowPart rootSize (pre ++ mid ++ post)).Hole (rowPart rootSize mid) f
      (rowCells rootSize f (pre ++ post))
      fun vs => rowValues rootSize f pre ++ vs ++ rowValues rootSize f post := by
  intro g hle hu
  simp only [rowCells_append] at hfit hu
  have hpre := rowPart_steady_of_wellFormed rootSize
    (fun p hp => hw p (List.mem_append_left _ hp)) f g
    (fun c hc => hfit c (List.mem_append_left _ hc)) hle
    (hu.mono fun c hc => List.mem_append_left _ hc)
  have hpost := rowPart_steady_of_wellFormed rootSize
    (fun p hp => hw p (List.mem_append_right _ hp)) f g
    (fun c hc => hfit c (List.mem_append_right _ hc)) hle
    (hu.mono fun c hc => List.mem_append_right _ hc)
  simp only [rowPart] at hpre hpost ⊢
  simp only [rowCells_append, rowValues_append, hpre.1, hpre.2, hpost.1, hpost.2, and_true,
    List.append_assoc]
  exact List.perm_append_comm.append_left _

/-- A single place in a row of nothing else. -/
theorem rowPart_hole_singleton (p : Layout × Nat) :
    (rowPart rootSize [p]).Hole (p.1.part rootSize p.2) f [] fun v => [v] := by
  intro g _ _
  simp [rowPart, Layout.part]

/-- The first place in a row. -/
theorem rowPart_hole_head {p : Layout × Nat} {row : List (Layout × Nat)}
    (hw : ∀ q ∈ row, q.1.WellFormed) (hs : Sound rootSize f (rowCells rootSize f (p :: row))) :
    (rowPart rootSize (p :: row)).Hole (p.1.part rootSize p.2) f (rowCells rootSize f row)
      fun v => v :: rowValues rootSize f row := by
  intro g hle hu
  obtain ⟨hcells, hvalues⟩ := rowPart_steady_of_wellFormed rootSize hw f g
    (fun c hc => hs.fits c (List.mem_append_right _ hc)) hle hu
  simp only [rowPart] at hcells hvalues
  simp only [rowPart, Layout.part, rowCells_cons, rowValues_cons, hcells, hvalues, and_true]
  exact List.perm_append_comm

/-- The places behind the first one of a row. -/
theorem rowPart_hole_tail {p : Layout × Nat} {row : List (Layout × Nat)} (hw : p.1.WellFormed)
    (hs : Sound rootSize f (rowCells rootSize f (p :: row))) :
    (rowPart rootSize (p :: row)).Hole (rowPart rootSize row) f (p.1.cells rootSize f p.2)
      fun vs => p.1.value rootSize f p.2 :: vs := by
  intro g hle hu
  obtain ⟨hcells, hvalue⟩ := hw.steady p.2 f g
    (fun c hc => hs.fits c (List.mem_append_left _ hc)) hle hu
  simp only [Layout.part] at hcells hvalue
  simp only [rowPart, rowCells_cons, rowValues_cons, hcells, hvalue, and_true]
  exact .refl _

/-- A row of fields makes up a record. -/
theorem RecordLayout.hole (rootSize : Nat) (f : File) (r : RecordLayout) (offset : Nat) :
    ((Layout.record r).part rootSize offset).Hole (rowPart rootSize (r.places offset)) f []
      fun vs => .record ((r.fields.map (·.name)).zip vs) := by
  intro g _ _
  simp only [Layout.part, rowPart, Layout.cells_record, Layout.value_record, List.nil_append,
    and_true]
  exact .refl _

namespace ArrayLayout

variable {a : ArrayLayout} {block next : Nat}

/-- The elements of an array make up the array. -/
theorem hole (a : ArrayLayout) (block : Nat) :
    ((Layout.array a).part rootSize block).Hole (a.part rootSize block) f [] .array := by
  intro g _ _
  simp only [Layout.part, part, Layout.value_array, List.nil_append, and_true]
  exact .refl _

/-- Some elements in an array. -/
theorem hole_row (pre mid post : List (Layout × Nat)) (hw : a.element.WellFormed)
    (hs : Sound rootSize f ((a.part rootSize block).cells f))
    (h : (Layout.array a).children rootSize f block = pre ++ mid ++ post) :
    (a.part rootSize block).Hole (rowPart rootSize mid) f
      (a.links rootSize f block ++ rowCells rootSize f (pre ++ post))
      fun vs => rowValues rootSize f pre ++ vs ++ rowValues rootSize f post := by
  intro g hle hu
  have hs := hs.perm (a.part_cells_perm rootSize f block)
  obtain ⟨hchain, hlinks⟩ := chain_congr hs.right.fits hle
    (hu.mono fun c hc => List.mem_append_left _ hc)
  have hchildren : (Layout.array a).children rootSize g block = pre ++ mid ++ post := by
    rw [← h, Layout.children, hchain, Layout.children]
  have hwf := children_wellFormed rootSize f hw block
  rw [h] at hs hwf
  have hsub := append_subset_surround pre mid post
  have hrow := rowPart_hole mid (fun p hp => hwf p (hsub hp))
    (fun c hc => hs.left.fits c (rowCells_mono hsub hc)) g hle
    (hu.mono fun c hc => List.mem_append_right _ hc)
  refine ⟨?_, ?_⟩
  · refine (a.part_cells_perm rootSize g block).trans ?_
    rw [hchildren, hlinks, List.append_assoc (a.links rootSize f block)]
    exact List.perm_append_comm.trans (hrow.1.append_left _)
  · show a.values rootSize g block = _
    rw [values, hchildren]
    exact hrow.2

/-- The elements in the first block. -/
theorem hole_block (hw : a.element.WellFormed)
    (hs : Sound rootSize f ((a.part rootSize block).cells f)) :
    ∃ ctx, (a.part rootSize block).Hole (rowPart rootSize (a.places block)) f ctx
      fun vs => vs ++ a.rest rootSize f block := by
  cases h : f.next? rootSize a block with
  | none =>
    have hole := hole_row [] (a.places block) [] hw hs
      (by simp [Layout.children_array_of_none h])
    exact ⟨_, by simpa [rest, h] using hole⟩
  | some next =>
    have hole := hole_row [] (a.places block) _ hw hs
      (Layout.children_array_of_some h)
    exact ⟨_, by simpa [rest, h, values] using hole⟩

/-- The elements from the next block on. -/
theorem hole_next (hw : a.element.WellFormed)
    (hs : Sound rootSize f ((a.part rootSize block).cells f))
    (h : f.next? rootSize a block = some next) :
    (a.part rootSize block).Hole (a.part rootSize next) f
      (rowCells rootSize f (a.places block) ++ a.linkCells f block)
      fun vs => rowValues rootSize f (a.places block) ++ vs := by
  intro g hle hu
  have hcells : (a.part rootSize block).cells f =
      rowCells rootSize f (a.places block) ++ a.linkCells f block ++
        (a.part rootSize next).cells f := by
    obtain ⟨hext, hlink, -⟩ := File.next?_eq_some_iff.mp h
    simp [part, Layout.cells_array_of_some h, linkCells, hext, hlink]
  rw [hcells] at hs
  obtain ⟨hnext, hlinks⟩ := next?_congr hs.left.right.fits hle
    (hu.mono fun c hc => List.mem_append_right _ hc)
  rw [h] at hnext
  have hrow := rowPart_steady_of_wellFormed rootSize (a.forall_places hw block) f g
    hs.left.left.fits hle (hu.mono fun c hc => List.mem_append_left _ hc)
  simp only [rowPart] at hrow
  obtain ⟨hext, hlink, -⟩ := File.next?_eq_some_iff.mp hnext
  refine ⟨?_, ?_⟩
  · rw [← hlinks, ← hrow.1]
    simp [part, Layout.cells_array_of_some hnext, linkCells, hext, hlink]
  · simp [part, values_of_some hnext, hrow.2]

end ArrayLayout

/-! ## Paths -/

section

variable {β : Type}

theorem modify_append_singleton {pre post : List β} {b : β} {change : β → β} :
    (pre ++ [b] ++ post).modify pre.length change = pre ++ [change b] ++ post := by
  induction pre with
  | nil => rfl
  | cons c pre ih => simpa using ih

theorem zip_modify {γ : Type} {names : List γ} {items : List β} {i : Nat} {change : β → β} :
    (names.zip items).modify i (fun p => (p.1, change p.2)) = names.zip (items.modify i change) := by
  induction names generalizing items i with
  | nil => simp
  | cons n names ih =>
    cases items with
    | nil => simp
    | cons b items =>
      cases i with
      | zero => rfl
      | succ i => simpa using ih

end

namespace Layout

/-- The place of a field is a hole in that of its record. -/
theorem field_hole {r : RecordLayout} {offset : Nat} {step : UInt64} {p : Layout × Nat}
    {pre post : List (Layout × Nat)} (hfields : ∀ field ∈ r.fields, field.layout.WellFormed)
    (hs : Sound rootSize f ((record r).cells rootSize f offset))
    (h : (r.places offset)[step.toNat]? = some p) (hrow : r.places offset = pre ++ [p] ++ post)
    (hlen : (rowValues rootSize f pre).length = step.toNat) :
    ∃ ctx fill, ((record r).part rootSize offset).Hole (p.1.part rootSize p.2) f ctx fill ∧
      (record r).Surrounds [step] p.1 fill := by
  have hsub := append_subset_surround pre [p] post
  have hwf : ∀ q ∈ pre ++ post, q.1.WellFormed := fun q hq => by
    obtain ⟨field, hfield, rfl⟩ := List.mem_map.mp (show q ∈ r.places offset from hrow ▸ hsub hq)
    exact hfields field hfield
  obtain ⟨field, hfield, hp⟩ : ∃ field, r.fields[step.toNat]? = some field ∧
      (field.layout, offset + field.offset) = p := by
    simpa [RecordLayout.places, List.getElem?_map] using h
  have hhole := r.hole rootSize f offset
  rw [hrow] at hhole
  rw [cells_record, hrow] at hs
  have hfit : ∀ c ∈ rowCells rootSize f (pre ++ post), c.Fits rootSize f := fun c hc =>
    hs.fits c (rowCells_mono hsub hc)
  refine ⟨_, _, (hhole.trans (rowPart_hole [p] hwf hfit)).trans (rowPart_hole_singleton p),
    fun change rest v => ?_, fun supplied? w w' h => leaves_record rfl ?_⟩
  · simp only [Function.comp_apply, List.singleton_append, update, hfield, Value.record.injEq]
    rw [zip_modify, ← hlen, modify_append_singleton, ← hp]
  · refine leaves_append_singleton rfl fun steps kind hkind => ?_
    rw [hlen] at hkind ⊢
    refine h steps kind ?_
    simpa [kind?, hfield, ← hp] using hkind

/-- The place of an element is a hole in that of its array. -/
theorem element_hole {a : ArrayLayout} {offset : Nat} {step : UInt64} {p : Layout × Nat}
    {pre post : List (Layout × Nat)} (helement : a.element.WellFormed)
    (hs : Sound rootSize f ((array a).cells rootSize f offset))
    (hrow : (array a).children rootSize f offset = pre ++ [p] ++ post)
    (hlen : (rowValues rootSize f pre).length = step.toNat) :
    ∃ ctx fill, ((array a).part rootSize offset).Hole (p.1.part rootSize p.2) f ctx fill ∧
      (array a).Surrounds [step] p.1 fill := by
  have hmem : p ∈ (array a).children rootSize f offset := by
    rw [hrow]
    simp
  have hp : p.1 = a.element := layout_of_mem_children hmem
  refine ⟨_, _, ((a.hole offset).trans (a.hole_row _ _ _ helement hs hrow)).trans
    (rowPart_hole_singleton p), fun change rest v => ?_, fun supplied? w w' h => ?_⟩
  · have hcount : (rowValues rootSize f pre ++ [v] ++ rowValues rootSize f post).length =
        (f.chain rootSize a offset).length * a.capacity := by
      rw [← a.length_values rootSize f, ArrayLayout.values, hrow]
      simp
    simp only [Function.comp_apply, List.singleton_append, update, Value.array.injEq]
    have hstep : step.toNat <
        (rowValues rootSize f pre ++ [v] ++ rowValues rootSize f post).length := by
      rw [List.length_append, List.length_append, List.length_singleton]
      omega
    rw [ArrayLayout.lengthen_of_le hcount hstep, ← hlen, modify_append_singleton, hp]
  · refine leaves_append_singleton rfl fun steps kind hkind => ?_
    rw [hlen]
    exact h steps kind (hp ▸ hkind)

/-- A place one step below another is a hole in it, and a change there is an update. -/
theorem child_hole {l : Layout} {offset : Nat} {step : UInt64} {p : Layout × Nat}
    (hw : l.WellFormed) (hs : Sound rootSize f (l.cells rootSize f offset))
    (h : (l.children rootSize f offset)[step.toNat]? = some p) :
    ∃ ctx fill, (l.part rootSize offset).Hole (p.1.part rootSize p.2) f ctx fill ∧
      l.Surrounds [step] p.1 fill := by
  obtain ⟨hlt, hget⟩ := List.getElem?_eq_some_iff.mp h
  have hsplit : l.children rootSize f offset =
      (l.children rootSize f offset).take step.toNat ++ [p] ++
        (l.children rootSize f offset).drop (step.toNat + 1) := by
    rw [← hget, List.take_concat_get', List.take_append_drop]
  have hlen : (rowValues rootSize f ((l.children rootSize f offset).take step.toNat)).length =
      step.toNat := by
    rw [length_rowValues, List.length_take]
    omega
  cases hw with
  | scalar kind => cases h
  | record _ fields => exact field_hole fields hs h hsplit hlen
  | array _ element => exact element_hole element hs hsplit hlen

/-- The place at the end of some steps is a hole. -/
theorem placeAt_hole {l : Layout} {offset : Nat} {steps : List UInt64} {p : Layout × Nat}
    (hw : l.WellFormed) (hs : Sound rootSize f (l.cells rootSize f offset))
    (h : l.placeAt rootSize f offset steps = some p) :
    ∃ ctx fill, (l.part rootSize offset).Hole (p.1.part rootSize p.2) f ctx fill ∧
      l.Surrounds steps p.1 fill := by
  induction steps generalizing l offset with
  | nil =>
    obtain rfl := Option.some.inj h
    exact ⟨[], id, fun g _ _ => ⟨.refl _, rfl⟩, .refl l⟩
  | cons step rest ih =>
    obtain ⟨child, hchild, h⟩ := placeAt_cons_eq_some.mp h
    obtain ⟨ctx, fill, hole, hsurrounds⟩ := child_hole hw hs hchild
    have hmem := List.mem_of_getElem? hchild
    obtain ⟨ctx', fill', hole', hsurrounds'⟩ :=
      ih (children_wellFormed hw child hmem) (hole.sound hs) h
    exact ⟨_, _, hole.trans hole', hsurrounds.trans hsurrounds'⟩

end Layout

end RecordFile
