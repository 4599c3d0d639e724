import RecordFile.Proofs.Walk.Links
import RecordFile.Proofs.Walk.Progress

/-!
# Walks that make chains longer

What walking does where it may append blocks: a walk along a chain ends at the slot it was sent to,
with the chain made just long enough for it (`Chain.does_locateFrom`), and a walk along a path ends
where the path leads in the new file (`does_traceFrom`). However far it gets, the value of the part
that it starts from has become the old one with its arrays made longer (`Layout.tracing`), so an
update by the same path gives the same.

What lies behind a block (`ArrayLayout.rest`) is found behind the next block, or zeros in its place
(`Chain.does_followOrExtend`).
-/

namespace RecordFile

open Session

namespace ArrayLayout

variable {rootSize : Nat} {f : File} {a : ArrayLayout} {block : Nat}

/-- A next block stays the next one. -/
theorem next?_of_evolves {α : Type} {P : Part α} {g : File} {next : Nat}
    (he : Evolves rootSize P f g) (hsub : ∀ c ∈ (a.part rootSize block).cells f, c ∈ P.cells f)
    (h : f.next? rootSize a block = some next) : g.next? rootSize a block = some next := by
  refine (he.linksKept.mono fun c hc => hsub c ?_).next?_eq h
  obtain ⟨hext, -⟩ := File.next?_eq_some_iff.mp h
  obtain rfl : c = .link a block (f.link a block) := by simpa [linkCells, hext] using hc
  exact link_mem hext

end ArrayLayout

variable {δ : Type} [Device δ] [LawfulDevice δ] {rootSize : Nat} {E : Halt → Prop}
  {s : Session δ}

namespace Chain

variable {a : ArrayLayout} {block : Nat} {D : Drift (List Value)}

/-- Extending a chain makes it longer by a block of zero values. -/
theorem does_extend (own : a.WellFormed) (he : a.element.WellFormed) (hext : a.extent = .chained)
    (hs : Sound rootSize s.file ((a.part rootSize block).cells s.file))
    (hle : block + a.size ≤ s.file.size) (hend : s.file.next? rootSize a block = none)
    (hfit : s.Fits) (hD : D.rel (a.values rootSize s.file block)
      (a.values rootSize s.file block ++ List.replicate a.capacity a.element.zero)) :
    Does rootSize (a.part rootSize block) D E (extend a block) s fun next s' =>
      s'.file.next? rootSize a block = some next ∧
        a.values rootSize s'.file block =
          a.values rootSize s.file block ++ List.replicate a.capacity a.element.zero := by
  have hlink := ArrayLayout.linkOffset_le own hext hle
  refine Ends.of_wp ((wp_extend (own.size_pos hext) (linkOffset_lt hfit hlink) hlink).mono
    (fun next s' h => ?_) fun _ s' h => ?_)
  · obtain ⟨rfl, hfile, hcount, hledger⟩ := h
    obtain ⟨hsize, hnumber, hblank, hframe⟩ := File.linked hlink hfit hfile
    obtain ⟨hevolves, hnext, hvalues, row, new, hnew, hcells, hcells'⟩ :=
      ArrayLayout.evolves_linked own he hext hs hend hsize hnumber hblank hframe
    have hdrift : D.rel (a.values rootSize s.file block) (a.values rootSize s'.file block) :=
      hvalues ▸ hD
    have hpos : s.file.size ≠ 0 := by
      have := own.size_of_chained hext
      have : linkSize = 8 := rfl
      omega
    -- The only cell that links a block where none was linked before is that of this link.
    have hblocks : linkedBlocks ((a.part rootSize block).cells s'.file) =
        linkedBlocks ((a.part rootSize block).cells s.file) + 1 := by
      rw [hcells, hcells']
      exact linkedBlocks_append_link hpos hnew
    have hbytes : linkedBytes ((a.part rootSize block).cells s'.file) =
        linkedBytes ((a.part rootSize block).cells s.file) + a.size := by
      rw [hcells, hcells']
      exact linkedBytes_append_link hpos hnew
    refine ⟨⟨⟨hevolves, fun blocks bytes ha => ?_, fun _ => by omega⟩, hdrift⟩, hnext, hvalues⟩
    exact ha.after 0 (by omega) hledger (fun _ _ => rfl) (by omega)
  · obtain ⟨n, hfile, hcount, hledger, hinf⟩ := h
    have hsize : s'.file.size = s.file.size + n := by
      rw [hfile, File.size_append, size_zeros]
    have hsteady := a.part_steady_of_wellFormed rootSize he block
    obtain ⟨hevolves, hcells, hvalue⟩ := hsteady.evolves (g := s'.file) hs (by omega)
      fun x hx => by
        rw [hfile]
        exact File.byte?_append_of_lt hx
    refine ⟨⟨⟨hevolves, fun blocks bytes ha => ?_, fun h => absurd h hinf⟩,
      by rw [hvalue]; exact D.refl _⟩, fun h => absurd h hinf⟩
    rw [hcells]
    exact ha.after n (by omega) hledger (fun k hk => by rw [hk, Nat.zero_add]) (by omega)

/-- The next block, appended if there was none. What lies behind is as before, or zeros. -/
theorem does_followOrExtend (own : a.WellFormed) (he : a.element.WellFormed)
    (hext : a.extent = .chained)
    (hs : Sound rootSize s.file ((a.part rootSize block).cells s.file))
    (hle : block + a.size ≤ s.file.size) (hfit : s.Fits) {n : Nat} (hD : a.Grows n D)
    (hn : a.capacity < n) :
    Does rootSize (a.part rootSize block) D E (followOrExtend rootSize a block) s fun next s' =>
      s'.file.next? rootSize a block = some next ∧
        rowValues rootSize s'.file (a.places block) = rowValues rootSize s.file (a.places block) ∧
        ∀ n, 0 < n → a.lengthen n (a.values rootSize s'.file next) =
          a.lengthen n (a.rest rootSize s.file block) := by
  have hlink := ArrayLayout.linkOffset_le own hext hle
  have := fun found => keeps_orExtend (R := SizeLe (δ := δ)) a block found
  refine Does.bind (S := fun found s' => Same s s' ∧
    found.map (·.val) = s.file.next? rootSize a block) (Does.of_same hs ?_) ?_
  · refine (wp_follow hext (linkOffset_lt hfit hlink) hlink).mono
      (fun found s' h => ⟨h.1, h.1, h.2.1⟩) fun _ s' h => ⟨h.1, fun hinf => ?_⟩
    obtain ⟨hne, hnot, -⟩ := h.2 hinf
    obtain ⟨-, -, -, hlinks⟩ := hs.fits _ (ArrayLayout.link_mem hext)
    exact absurd (hlinks.resolve_left hne) hnot
  · intro found s₁ hfit₁ hprogress h
    obtain ⟨hsame, hfound⟩ := h
    rw [← hsame.file_eq] at hfound hle
    cases found with
    | some next =>
      refine Does.pure hprogress.sound ⟨hfound.symm, by rw [hsame.file_eq], fun n _ => ?_⟩
      rw [ArrayLayout.rest, ← hsame.file_eq, ← hfound]
      rfl
    | none =>
      have hcount : (a.values rootSize s₁.file block).length = a.capacity := by
        rw [ArrayLayout.values_of_none hfound.symm]
        simp
      refine (does_extend own he hext hprogress.sound hle hfound.symm hfit₁
        (hD _ 1 (hcount.trans (Nat.one_mul _).symm) (hcount ▸ hn))).mono
          fun next s' _ _ h => ⟨h.1, ?_, fun n hn => ?_⟩
      · have hvalues := h.2
        rw [ArrayLayout.values_eq, ArrayLayout.values_eq, List.append_assoc] at hvalues
        rw [← hsame.file_eq]
        exact (List.append_inj hvalues (by simp)).1
      · have hvalues := h.2
        rw [ArrayLayout.values_of_some h.1, ArrayLayout.values_of_none hfound.symm] at hvalues
        have hnext := (List.append_inj hvalues (by simp)).2
        rw [hnext, ArrayLayout.rest, ← hsame.file_eq, ← hfound]
        exact (ArrayLayout.lengthen_nil hext hn).symm

/-- A walk along a chain ends at the slot it was sent to. -/
theorem does_locateFrom (own : a.WellFormed) (he : a.element.WellFormed)
    (hext : a.extent = .chained) (index remaining allocated : Nat)
    (hs : Sound rootSize s.file ((a.part rootSize block).cells s.file))
    (hle : block + a.size ≤ s.file.size) (hD : a.Grows (remaining + 1) D) :
    Does rootSize (a.part rootSize block) D E
      (locateFrom rootSize .allowed a index block remaining allocated) s fun offset s' =>
        ((Layout.array a).children rootSize s'.file block)[remaining]? =
            some (a.element, offset) ∧
          a.values rootSize s'.file block =
            a.lengthen (remaining + 1) (a.values rootSize s.file block) := by
  induction remaining using Nat.strongRecOn generalizing s block allocated D with
  | ind remaining ih =>
    refine Does.of_fits fun hfit => ?_
    have hpos := a.capacity_pos
    rw [locateFrom]
    split
    · rename_i hcap
      have := keeps_locateNext (R := SizeLe (δ := δ)) (a := a) rootSize .allowed index remaining
        allocated
      refine Does.bind (S := fun found s' => ∃ next, found = some next ∧
        s'.file.next? rootSize a block = some next ∧
        rowValues rootSize s'.file (a.places block) = rowValues rootSize s.file (a.places block) ∧
        ∀ n, 0 < n → a.lengthen n (a.values rootSize s'.file next) =
          a.lengthen n (a.rest rootSize s.file block)) ?_ ?_
      · refine Does.bind (does_followOrExtend own he hext hs hle hfit hD (by omega))
          fun next s' _ hp h => ?_
        exact Does.pure hp.sound ⟨next, rfl, h⟩
      · rintro _ s₁ - hp ⟨next, rfl, hnext, hrow, hrest⟩
        have hleads := (File.next?_eq_some_iff.mp hnext).2.2
        have hrow₁ : (rowValues rootSize s₁.file (a.places block)).length = a.capacity := by simp
        have hD' := hD.behind hrow₁
        rw [show remaining + 1 - a.capacity = remaining - a.capacity + 1 by omega] at hD'
        refine (Does.hole (ArrayLayout.hole_next he hp.sound hnext) hp.sound (fun _ h => h) fun hs =>
          ih (remaining - a.capacity) (by omega) _ hs hleads.2.2 hD').mono fun offset s' _ hp' h => ?_
        obtain ⟨-, hfill, hchild, hvalues⟩ := h
        have hnext' := ArrayLayout.next?_of_evolves hp'.evolves (fun c hc => hc) hnext
        refine ⟨(Layout.children_array_of_le hnext' hcap).trans hchild, hfill.trans ?_⟩
        have hcount : remaining + 1 = remaining - a.capacity + 1 + a.capacity := by omega
        show rowValues rootSize s₁.file (a.places block) ++ a.values rootSize s'.file next = _
        rw [hvalues, hrest _ (Nat.succ_pos _), hrow, hcount, a.values_eq,
          ArrayLayout.lengthen_append hext (by simp)]
    · rename_i hcap
      rw [a.slotOffset?_eq own (Nat.lt_of_not_le hcap) (Nat.lt_of_le_of_lt hle hfit)]
      refine Does.pure hs ⟨Layout.children_array_of_lt (Nat.lt_of_not_le hcap), ?_⟩
      have hlength := a.length_values rootSize s.file block
      refine (ArrayLayout.lengthen_of_le hlength ?_).symm
      have := a.values_eq rootSize s.file block
      rw [this, List.length_append, length_rowValues, ArrayLayout.length_places]
      omega

/-- The place of an element, for an index that the array accepts. -/
theorem does_locate (own : a.WellFormed) (he : a.element.WellFormed) {index : Nat}
    (hs : Sound rootSize s.file ((a.part rootSize block).cells s.file))
    (hle : block + a.size ≤ s.file.size) (hindex : ¬ (a.extent = .fixed ∧ a.capacity ≤ index))
    (hD : a.extent = .chained → a.Grows (index + 1) D) :
    Does rootSize (a.part rootSize block) D E (locate rootSize .allowed a block index) s
      fun offset s' =>
      ((Layout.array a).children rootSize s'.file block)[index]? = some (a.element, offset) ∧
        a.values rootSize s'.file block =
          a.lengthen (index + 1) (a.values rootSize s.file block) := by
  refine Does.of_fits fun hfit => ?_
  cases hext : a.extent with
  | fixed =>
    have hlt : index < a.capacity := Nat.lt_of_not_le fun h => hindex ⟨hext, h⟩
    rw [locate_of_fixed own hext hlt (Nat.lt_of_le_of_lt hle hfit)]
    exact Does.pure hs ⟨Layout.children_array_of_lt hlt, (ArrayLayout.lengthen_of_fixed hext _ _).symm⟩
  | chained =>
    rw [locate, hext]
    exact does_locateFrom own he hext index index a.capacity hs hle (hD hext)

end Chain

/-- Where a walk ends that goes on at a place one step below. -/
theorem Does.child {l : Layout} {offset : Nat} {p : Layout × Nat} {step : UInt64}
    {rest : List UInt64} {m : Action (Session δ) Nat} (hw : l.WellFormed)
    (hs : Sound rootSize s.file (l.cells rootSize s.file offset))
    (hchild : (l.children rootSize s.file offset)[step.toNat]? = some p)
    (h : Sound rootSize s.file (p.1.cells rootSize s.file p.2) →
      Does rootSize (p.1.part rootSize p.2) (p.1.tracing rest) E m s fun offset' s' =>
        ∃ l', p.1.placeAt rootSize s'.file p.2 rest = some (l', offset')) :
    Does rootSize (l.part rootSize offset) (l.tracing (step :: rest)) E m s fun offset' s' =>
      ∃ l', l.placeAt rootSize s'.file offset (step :: rest) = some (l', offset') := by
  obtain ⟨ctx, fill, hole, hsurrounds⟩ := Layout.child_hole hw hs hchild
  refine (Does.hole hole hs (fun _ => hsurrounds.tracing) h).mono fun offset' s' _ hp h => ?_
  obtain ⟨-, -, l', hplace⟩ := h
  obtain ⟨more, hmore⟩ := hp.evolves.linksKept.children_prefix
  refine ⟨l', ?_⟩
  rw [Layout.placeAt, ← hmore,
    List.getElem?_append_left (List.getElem?_eq_some_iff.mp hchild).1, hchild]
  exact hplace

/-- A walk along a path ends where the path leads, if it leads anywhere. -/
theorem does_traceFrom {path : Path} {position offset : Nat} {l : Layout} {steps : List UInt64}
    (hw : l.WellFormed) (hs : Sound rootSize s.file (l.cells rootSize s.file offset))
    (hle : offset + l.size ≤ s.file.size) :
    Does rootSize (l.part rootSize offset) (l.tracing steps)
      (fun _ => ∀ l', l.descend path position steps ≠ .ok l')
      (traceFrom rootSize .allowed path position l offset steps) s fun offset' s' =>
        ∃ l', l.placeAt rootSize s'.file offset steps = some (l', offset') := by
  induction steps generalizing s position offset l with
  | nil => exact Does.pure hs ⟨l, rfl⟩
  | cons step rest ih =>
    refine Does.of_fits fun hfit => ?_
    cases l with
    | scalar kind =>
      rw [traceFrom]
      exact Does.fail hs (Layout.descend_scalar kind)
    | record r =>
      rw [traceFrom]
      cases hfield : r.fields[step.toNat]? with
      | none => exact Does.fail hs (Layout.descend_record_of_none hfield)
      | some field =>
        have hchild := @Layout.children_record_of_some rootSize s.file _ _ _ hfield offset
        have hmem := List.mem_of_getElem? hchild
        have hlt := Nat.lt_of_le_of_lt hle hfit
        simp only [hw.of_record.fieldOffset_eq hlt (List.mem_of_getElem? hfield),
          orAbort_some_bind, Layout.descend_record_of_some hfield]
        exact Does.child hw hs hchild fun hs =>
          ih (Layout.children_wellFormed hw _ hmem) hs (Layout.children_le hw hle _ hmem)
    | array a =>
      obtain ⟨own, he⟩ := hw.of_array
      rw [traceFrom]
      by_cases hindex : a.extent = .fixed ∧ a.capacity ≤ step.toNat
      · refine Does.bind (S := fun _ _ => False) ?_ fun _ _ _ _ h => h.elim
        rw [Chain.locate_of_le hindex]
        exact Does.fail hs (Layout.descend_array_of_le hindex)
      rw [Layout.descend_array hindex]
      refine Does.bind (S := fun offset' s' =>
        ((Layout.array a).children rootSize s'.file offset)[step.toNat]? =
          some (a.element, offset')) ?_ ?_
      · refine (Does.hole (a.hole offset) hs (fun _ h => h) fun hs =>
          Chain.does_locate own he hs hle hindex fun hext =>
            ArrayLayout.grows_tracing hext step rest).mono fun _ _ _ _ h => h.2.2.1
      · intro offset₁ s₁ _ hp hchild
        have hle₁ := Nat.le_trans hle hp.evolves.size_le
        have hmem := List.mem_of_getElem? hchild
        exact Does.child hw hp.sound hchild fun hs =>
          ih (Layout.children_wellFormed hw _ hmem) hs (Layout.children_le hw hle₁ _ hmem)

end RecordFile
