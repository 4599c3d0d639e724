import RecordFile.Proofs.File.Chains
import RecordFile.Proofs.File.Selection
import RecordFile.Proofs.File.Stable
import RecordFile.Proofs.Layout.Catalog
import RecordFile.Proofs.Tree
import RecordFile.Proofs.Walk.Links

/-!
# Walks that only read

`Reads s m Q E` is the specification of a walk that only reads: from any state that is like `s`, it
leads to such a state, with a result in `Q` or, unless the device is to blame, a halt in `E`.

What tracing without growth finds in a file, whatever the file holds: it finds what `Layout.placeAt`
says, or it halts, because the file has a link that must not be followed (`Damaged`) or because an
array has not so many elements; the error then tells the index and how many there are. Along a chain
this is told block by block, and so is where the walk halts (`Chain.reads_locateFrom`,
`Chain.locate_chained`).
-/

namespace RecordFile

open Session

section

variable {δ : Type} [Device δ] [LawfulDevice δ]

/-- `m` only reads: it gives a result in `Q` or halts in `E`, or because the device failed. -/
def Reads {α : Type} (s : Session δ) (m : Action (Session δ) α) (Q : α → Prop)
    (E : Halt → Prop) : Prop :=
  ∀ s₁, Same s s₁ → WP m s₁ (fun a s' => Same s s' ∧ Q a)
    fun e s' => Same s s' ∧ (LawfulDevice.infallible δ → E e)

namespace Reads

variable {α β : Type} {s : Session δ} {Q Q' : α → Prop} {E E' : Halt → Prop}

theorem mono {m : Action (Session δ) α} (h : Reads s m Q E) (hQ : ∀ a, Q a → Q' a)
    (hE : ∀ e, E e → E' e) : Reads s m Q' E' := fun s₁ hs₁ =>
  (h s₁ hs₁).mono (fun a _ h => ⟨h.1, hQ a h.2⟩) fun e _ h => ⟨h.1, fun hinf => hE e (h.2 hinf)⟩

theorem pure {a : α} (h : Q a) : Reads s (pure a) Q E := fun _ hs₁ => ⟨hs₁, h⟩

theorem fail {e : Error} (h : E (.error e)) : Reads s (fail e) Q E := fun _ hs₁ => ⟨hs₁, fun _ => h⟩

theorem bind {m : Action (Session δ) β} {f : β → Action (Session δ) α} {P : β → Prop}
    (h : Reads s m P E) (hf : ∀ b, P b → Reads s (f b) Q E) : Reads s (m >>= f) Q E := by
  intro s₁ hs₁
  rw [WP.bind_iff]
  exact (h s₁ hs₁).mono (fun b s₂ h => hf b h.2 s₂ h.1) fun _ _ h => h

theorem map {m : Action (Session δ) β} {f : β → α} (h : Reads s m (fun b => Q (f b)) E) :
    Reads s (f <$> m) Q E := fun s₁ hs₁ => WP.map_iff.mpr (h s₁ hs₁)

end Reads

end

/-- The file is to blame, and one of the cells is not in order. -/
def Damaged (rootSize : Nat) (f : File) (cells : List Cell) (e : Halt) : Prop :=
  e.IsCorruption ∧ ∃ c ∈ cells, ¬ c.Fits rootSize f

theorem Damaged.mono {rootSize : Nat} {f : File} {cells cells' : List Cell} {e : Halt}
    (h : Damaged rootSize f cells e) (hsub : ∀ c ∈ cells, c ∈ cells') :
    Damaged rootSize f cells' e :=
  ⟨h.1, h.2.imp fun c hc => ⟨hsub c hc.1, hc.2⟩⟩

/-- Nothing is damaged in a sound part. -/
theorem Sound.not_damaged {rootSize : Nat} {f : File} {cells : List Cell} {e : Halt}
    (hs : Sound rootSize f cells) : ¬ Damaged rootSize f cells e :=
  fun ⟨_, c, hc, hfit⟩ => hfit (hs.fits c hc)

section

variable {δ : Type} [Device δ] [LawfulDevice δ] {rootSize : Nat} {s : Session δ}

/-! ## Tracing -/

/-- A chain has not so many elements. -/
def Halt.IsOutOfRange (e : Halt) : Prop :=
  ∃ index capacity, e = .error (.indexOutOfRange index capacity)

theorem Halt.IsOutOfRange.isError {e : Halt} (h : e.IsOutOfRange) : e.IsError :=
  let ⟨_, _, h⟩ := h
  ⟨_, h⟩

namespace Chain

variable {a : ArrayLayout} {block : Nat}

/-- A link may be followed if and only if its cell is in order. -/
theorem reads_follow (own : a.WellFormed) (hext : a.extent = .chained) (hfit : s.Fits)
    (hle : block + a.size ≤ s.file.size) :
    Reads s (follow rootSize a block)
      (fun found => found.map (·.val) = s.file.next? rootSize a block ∧
        (Cell.link a block (s.file.link a block)).Fits rootSize s.file)
      fun e => e = s.file.badLink a block ∧
        ¬ (Cell.link a block (s.file.link a block)).Fits rootSize s.file := by
  intro s₁ hs₁
  have hlink := a.linkOffset_le own hext hle
  rw [← hs₁.file_eq] at hlink
  have hfit₁ : s₁.Fits := by
    unfold Fits
    rwa [hs₁.file_eq]
  refine (wp_follow hext (linkOffset_lt hfit₁ hlink) hlink).mono
    (fun found s' h => ⟨hs₁.trans h.1, ?_⟩) fun e s' h => ⟨hs₁.trans h.1, fun hinf => ?_⟩
  · obtain ⟨-, hfound, hlink⟩ := h
    rw [hs₁.file_eq] at hfound hlink
    exact ⟨hfound, own.size_of_chained hext, hle, rfl, hlink⟩
  · obtain ⟨hne, hnot, hbad⟩ := h.2 hinf
    rw [hs₁.file_eq] at hne hnot hbad
    refine ⟨hbad, fun hfit => ?_⟩
    obtain ⟨-, -, -, hzero | hleads⟩ := hfit
    · exact hne hzero
    · exact hnot hleads

/-- Where a chain must not grow, a walk halts at a link that is not zero and must not be followed. -/
theorem reads_next (own : a.WellFormed) (hext : a.extent = .chained) (hfit : s.Fits)
    (hle : block + a.size ≤ s.file.size) :
    Reads s (next rootSize .forbidden a block)
      (fun found => found = s.file.next? rootSize a block ∧
        (Cell.link a block (s.file.link a block)).Fits rootSize s.file)
      fun e => s.file.next? rootSize a block = none ∧ s.file.link a block ≠ 0 ∧
        e = s.file.badLink a block := by
  refine .map ((reads_follow own hext hfit hle).mono (fun _ h => h) fun e he => ?_)
  obtain ⟨rfl, hnot⟩ := he
  have hsize := own.size_of_chained hext
  have hnone : s.file.next? rootSize a block = none :=
    Option.eq_none_iff_forall_ne_some.mpr fun next hnext =>
      hnot (Cell.fits_of_next? hsize hle hnext)
  exact ⟨hnone, fun hzero => hnot ⟨hsize, hle, rfl, .inl hzero⟩, rfl⟩

/-- A walk along a chain that must not grow, behind the first `before` elements of an array: it gets
to the block that the element falls into, or else to the last one, whose link is zero or must not be
followed. -/
theorem reads_locateFrom (own : a.WellFormed) (hext : a.extent = .chained) (hfit : s.Fits)
    (hle : block + a.size ≤ s.file.size) {index before remaining allocated : Nat}
    (hindex : index = before + remaining) (hlt : index < wordLimit)
    (hallocated : a.capacity ≤ remaining → allocated = before + a.capacity) :
    Reads s (locateFrom rootSize .forbidden a index block remaining allocated)
      (fun offset => ∃ found,
        (s.file.chain rootSize a block)[remaining / a.capacity]? = some found ∧
        offset = found + remaining % a.capacity * a.element.size)
      fun e => (s.file.chain rootSize a block).length ≤ remaining / a.capacity ∧
        ∃ last, (s.file.chain rootSize a block).getLast? = some last ∧
          e = if s.file.link a last = 0 then .error (.indexOutOfRange index
              (before + (s.file.chain rootSize a block).length * a.capacity))
            else s.file.badLink a last := by
  induction remaining using Nat.strongRecOn generalizing block before allocated with
  | ind remaining ih =>
    have hpos := a.capacity_pos
    rw [locateFrom]
    split
    · rename_i hcap
      have hcount := hallocated hcap
      -- Where no block is linked, this one is the last of the chain.
      have hend : s.file.next? rootSize a block = none →
          (s.file.chain rootSize a block).length = 1 ∧
            (s.file.chain rootSize a block).length ≤ remaining / a.capacity ∧
            (s.file.chain rootSize a block).getLast? = some block := fun hnone => by
        rw [File.chain_of_none hnone]
        exact ⟨rfl, Nat.div_pos hcap hpos, rfl⟩
      refine .bind ((reads_next own hext hfit hle).mono (fun _ h => h) fun e he => ?_)
        fun found hfound => ?_
      · obtain ⟨hnone, hne, rfl⟩ := he
        obtain ⟨-, hlen, hlast⟩ := hend hnone
        exact ⟨hlen, block, hlast, (if_neg hne).symm⟩
      obtain ⟨rfl, hfits⟩ := hfound
      cases hnext : s.file.next? rootSize a block with
      | none =>
        obtain ⟨hone, hlen, hlast⟩ := hend hnext
        refine .fail ⟨hlen, block, hlast, ?_⟩
        rw [if_pos (hfits.link_eq_zero hext hnext), hone, hcount, Nat.one_mul]
      | some next =>
        have hleads := (File.next?_eq_some_iff.mp hnext).2.2
        -- As long as an element is looked for behind this block, the count is that of a word.
        have hcount' : a.capacity ≤ remaining - a.capacity →
            saturatingAdd allocated a.capacity = before + a.capacity + a.capacity := fun hmore => by
          rw [hcount, saturatingAdd_of_lt (by omega)]
        rw [File.getLast?_chain_of_some hnext, File.chain_of_some hnext, List.length_cons,
          Nat.add_mul, Nat.one_mul, Nat.add_comm (_ * _), ← Nat.add_assoc,
          Nat.div_eq_sub_div hpos hcap, Nat.mod_eq_sub_mod hcap]
        refine (ih (remaining - a.capacity) (by omega) hleads.2.2
          (by omega : index = before + a.capacity + (remaining - a.capacity)) hcount').mono
          (fun _ h => h) fun e he => ⟨Nat.succ_le_succ he.1, he.2⟩
    · rename_i hcap
      have hslot := Nat.lt_of_not_le hcap
      rw [a.slotOffset?_eq own hslot (Nat.lt_of_le_of_lt hle hfit), Nat.div_eq_of_lt hslot,
        Nat.mod_eq_of_lt hslot]
      exact .pure ⟨block, File.getElem?_chain_zero, rfl⟩

/-- The place of an element that is there; the error of one that is not tells how many there are. -/
theorem reads_locate (own : a.WellFormed) (hfit : s.Fits) (hle : block + a.size ≤ s.file.size)
    {index : Nat} (hlt : index < wordLimit) :
    Reads s (locate rootSize .forbidden a block index)
      (fun offset => ((Layout.array a).children rootSize s.file block)[index]? =
        some (a.element, offset))
      fun e => Damaged rootSize s.file ((a.part rootSize block).cells s.file) e ∨
        ((Layout.array a).children rootSize s.file block).length ≤ index ∧
          e = .error (.indexOutOfRange index
            ((Layout.array a).children rootSize s.file block).length) := by
  cases hext : a.extent with
  | fixed =>
    rcases Nat.lt_or_ge index a.capacity with hin | hcap
    · rw [locate_of_fixed own hext hin (Nat.lt_of_le_of_lt hle hfit)]
      exact .pure (Layout.children_array_of_lt hin)
    · rw [locate_of_le ⟨hext, hcap⟩, Layout.children_array_of_none (File.next?_of_fixed hext),
        ArrayLayout.length_places]
      exact .fail (.inr ⟨hcap, rfl⟩)
  | chained =>
    rw [locate, hext, ArrayLayout.length_children]
    refine (reads_locateFrom own hext hfit hle (Nat.zero_add index).symm hlt fun _ =>
      (Nat.zero_add _).symm).mono (fun offset h => ?_) fun e he => ?_
    · obtain ⟨found, hfound, rfl⟩ := h
      have hchild := Layout.children_of_chain hfound (Nat.mod_lt index a.capacity_pos)
      rwa [Nat.div_add_mod'] at hchild
    · obtain ⟨hlen, last, hlast, rfl⟩ := he
      split
      · rw [Nat.zero_add]
        exact .inr ⟨(Nat.le_div_iff_mul_le a.capacity_pos).mp hlen, rfl⟩
      · rename_i hne
        have hmem := ArrayLayout.link_mem_of_mem_chain hext (List.mem_of_getLast? hlast)
        exact .inl ⟨File.isCorruption_badLink .., _, hmem, fun hfits =>
          hne (hfits.link_eq_zero hext (File.next?_getLast hlast))⟩

/-- Along a chain the element `index` is in the block `index / capacity`, in the slot
`index % capacity`. If there are fewer blocks, the walk halts at the last one: the link is zero, and
the error tells how many slots the chain has, or the link is not zero and must not be followed. -/
theorem locate_chained (hinf : LawfulDevice.infallible δ) (own : a.WellFormed)
    (hext : a.extent = .chained) (hfit : s.Fits) {start : Nat} (hle : start + a.size ≤ s.file.size)
    (index : UInt64) :
    ∃ last s', (s.file.chain rootSize a start).getLast? = some last ∧ Same s s' ∧
      locate rootSize .forbidden a start index.toNat s =
        match (s.file.chain rootSize a start)[index.toNat / a.capacity]? with
        | some block => .ok (block + index.toNat % a.capacity * a.element.size) s'
        | none => .error (if s.file.link a last = 0 then .error (.indexOutOfRange index.toNat
            (a.capacity * (s.file.chain rootSize a start).length))
          else s.file.badLink a last) s' := by
  have hlast := List.getLast?_eq_some_getLast
    (List.ne_nil_of_mem (s.file.mem_chain_self rootSize a start))
  have hreads : Reads s (locateFrom rootSize .forbidden a index.toNat start index.toNat a.capacity)
      _ _ := reads_locateFrom own hext hfit hle (Nat.zero_add index.toNat).symm index.toNat_lt
    fun _ => (Nat.zero_add a.capacity).symm
  have hwalk := hreads s (.refl s)
  simp only [locate, hext]
  cases hrun : locateFrom rootSize .forbidden a index.toNat start index.toNat a.capacity s with
  | ok offset s' =>
    obtain ⟨hsame, block, hblock, rfl⟩ := hwalk.ok hrun
    refine ⟨_, s', hlast, hsame, ?_⟩
    rw [hblock]
  | error e s' =>
    obtain ⟨hsame, herror⟩ := hwalk.error hrun
    obtain ⟨hlen, last, hlast, rfl⟩ := herror hinf
    refine ⟨last, s', hlast, hsame, ?_⟩
    rw [List.getElem?_eq_none hlen, Nat.zero_add, Nat.mul_comm]

/-- A byte and two blocks of two bytes each. The link of the second block leads back to the first. -/
theorem locate_chained_bytePairs :
    let s : Session File :=
      ⟨⟨⟨#[0, 0, 0, 12, 0, 0, 0, 0, 0, 0, 0, 0, 7, 9, 1, 0, 0, 0, 0, 0, 0, 0]⟩⟩, {}⟩
    (∃ s', locate 11 .forbidden .bytePairs 1 3 s = .ok 13 s') ∧
      ∃ s', locate 11 .forbidden .bytePairs 1 4 s =
        .error (.error (.corrupted (.badLink 14 1 10 22))) s' := by
  intro s
  have hchain : s.file.chain 11 .bytePairs 1 = [1, 12] := by
    have hfirst : s.file.next? 11 .bytePairs 1 = some 12 := by decide +kernel
    have hsecond : s.file.next? 11 .bytePairs 12 = none := by decide +kernel
    rw [File.chain_of_some hfirst, File.chain_of_none hsecond]
  have hlink : s.file.link .bytePairs 12 = 1 := by decide +kernel
  have hbad : s.file.badLink .bytePairs 12 = .error (.corrupted (.badLink 14 1 10 22)) := by
    rw [File.badLink, hlink]
    rfl
  have own : ArrayLayout.bytePairs.WellFormed := ⟨rfl, fun _ => by decide⟩
  have hlocate := @locate_chained File _ _ 11 s .bytePairs trivial own rfl (by decide +kernel) 1
    (by decide +kernel)
  rw [hchain] at hlocate
  constructor
  · obtain ⟨last, s', -, -, hrun⟩ := hlocate 3
    exact ⟨s', hrun⟩
  · obtain ⟨last, s', hlast, -, hrun⟩ := hlocate 4
    obtain rfl : 12 = last := Option.some.inj hlast
    rw [hlink, hbad] at hrun
    exact ⟨s', hrun⟩

end Chain

/-- A walk along a path that must not make chains longer ends where the path leads, if it leads
anywhere. If an array is too short for one of the steps, the error tells the step and the length of
the array. -/
theorem reads_traceFrom {path : Path} {position offset : Nat} {l : Layout} {steps : List UInt64}
    (hw : l.WellFormed) (hfit : s.Fits) (hle : offset + l.size ≤ s.file.size) :
    Reads s (traceFrom rootSize .forbidden path position l offset steps)
      (fun offset' => ∃ l', l.placeAt rootSize s.file offset steps = some (l', offset'))
      fun e => Damaged rootSize s.file (l.cells rootSize s.file offset) e ∨
        l.placeAt rootSize s.file offset steps = none ∧ e.IsError ∧
          ∀ l', l.descend path position steps = .ok l' → ∃ index length,
            (l.value rootSize s.file offset).overrun? (steps.map UInt64.toNat) =
              some (index, length) ∧ e = .error (.indexOutOfRange index length) := by
  induction steps generalizing position offset l with
  | nil =>
    rw [traceFrom]
    exact .pure ⟨l, rfl⟩
  | cons step rest ih =>
    -- Once the place below is known, the walk goes on there.
    have hbelow : ∀ p, (l.children rootSize s.file offset)[step.toNat]? = some p →
        (∀ l', l.descend path position (step :: rest) = .ok l' →
          p.1.descend path (position + 1) rest = .ok l') →
        Reads s (traceFrom rootSize .forbidden path (position + 1) p.1 p.2 rest)
          (fun offset' => ∃ l', l.placeAt rootSize s.file offset (step :: rest) = some (l', offset'))
          fun e => Damaged rootSize s.file (l.cells rootSize s.file offset) e ∨
            l.placeAt rootSize s.file offset (step :: rest) = none ∧ e.IsError ∧
              ∀ l', l.descend path position (step :: rest) = .ok l' → ∃ index length,
                (l.value rootSize s.file offset).overrun? ((step :: rest).map UInt64.toNat) =
                  some (index, length) ∧ e = .error (.indexOutOfRange index length) := by
      intro p hchild hdescend
      have hmem := List.mem_of_getElem? hchild
      rw [Layout.placeAt, hchild, List.map_cons, Layout.overrun?_of_child hchild]
      refine (ih (Layout.children_wellFormed hw p hmem) (Layout.children_le hw hle p hmem)).mono
        (fun _ h => h) fun e he => he.imp (fun he => he.mono (Layout.cells_of_mem_children hmem))
          fun he => ⟨he.1, he.2.1, fun l' hl' => he.2.2 l' (hdescend l' hl')⟩
    cases l with
    | scalar kind =>
      rw [traceFrom]
      exact .fail (.inr ⟨rfl, ⟨_, rfl⟩, fun l' hl' => absurd hl' (Layout.descend_scalar kind l')⟩)
    | record r =>
      rw [traceFrom]
      cases hfield : r.fields[step.toNat]? with
      | none =>
        refine .fail (.inr ⟨?_, ⟨_, rfl⟩, fun l' hl' =>
          absurd hl' (Layout.descend_record_of_none hfield l')⟩)
        simp [Layout.placeAt, Layout.children, RecordLayout.places, hfield]
      | some field =>
        have hlt := Nat.lt_of_le_of_lt hle hfit
        simp only [hw.of_record.fieldOffset_eq hlt (List.mem_of_getElem? hfield), orAbort_some_bind]
        refine hbelow _ (Layout.children_record_of_some hfield offset) fun l' hl' => ?_
        rwa [Layout.descend_record_of_some hfield] at hl'
    | array a =>
      rw [traceFrom]
      refine .bind ((Chain.reads_locate hw.of_array.1 hfit hle step.toNat_lt).mono (fun _ h => h)
        fun e he => he.imp (fun he => he) fun he => ⟨?_, ⟨_, he.2⟩, fun l' _ => ?_⟩)
        fun offset' hchild => ?_
      · rw [Layout.placeAt, List.getElem?_eq_none he.1]
      · exact ⟨_, _, ArrayLayout.overrun?_of_le he.1 _, he.2⟩
      · refine hbelow _ hchild fun l' hl' => ?_
        by_cases hindex : a.extent = .fixed ∧ a.capacity ≤ step.toNat
        · exact absurd hl' (Layout.descend_array_of_le hindex l')
        · rwa [Layout.descend_array hindex] at hl'

end

end RecordFile
