import RecordFile.Proofs.Walk.Decoding
import RecordFile.Proofs.Walk.Progress

/-!
# Walks that audit

What an audit tells of a file, whatever the file holds, where no call fails. An audit is to find
nothing wrong with cells that a tally `Accepts`: their links may be followed, and no block is linked
that another one of them or one before them links. `Tally.Audits t t' cells` says that between two
tallies just these cells have been audited. There are new findings unless the tally accepts the cells,
and if there are none, the blocks that they link were visited and counted.

This holds of cells one after the other (`Tally.Audits.trans`), so it is enough to know it of a link
that is zero, may not be followed, leads to a block that was visited before, or leads to a new one.
Where an audit stops, as it does at a block that was visited before, the cells behind are not looked
at, but they are not accepted either.

An audit only breaks off in a program that does not let sums wrap, and if the blocks that the cells
link have more bytes than a word can count (`Tally.Exceeds`).
-/

namespace RecordFile

open Session

/-- The links of the cells may be followed, and lead to different blocks, none of which has been
visited. -/
structure Tally.Accepts (rootSize : Nat) (f : File) (t : Tally) (cells : List Cell) : Prop where
  fits : ∀ c ∈ cells, c.Fits rootSize f
  nodup : (follows cells).Nodup
  fresh : ∀ x ∈ follows cells, x ∉ t.visited

/-- From one tally to the other, the blocks that the cells link were visited and counted. -/
structure Tally.Counts (t t' : Tally) (cells : List Cell) : Prop where
  visited : ∀ x, x ∈ t'.visited ↔ x ∈ t.visited ∨ x ∈ follows cells
  blocks : t'.blocks = t.blocks + linkedBlocks cells
  reachable : t'.reachable = t.reachable + .ofNat (linkedBytes cells)

/-- From one tally to the other, the cells were audited. -/
structure Tally.Audits (rootSize : Nat) (f : File) (t t' : Tally) (cells : List Cell) : Prop where
  findings : ∃ new, t'.findings = new ++ t.findings ∧ (t.Accepts rootSize f cells → new = []) ∧
    ((∀ c ∈ cells, c.Fits rootSize f) →
      ∀ finding ∈ new, ∃ block, finding.fault = .sharedBlock block)
  counts : t'.findings = t.findings → t.Accepts rootSize f cells ∧ t.Counts t' cells
  reachable_le : t'.reachable.toNat ≤ t.reachable.toNat + linkedBytes cells

/-- The audit of the cells breaks off, as no word can count the bytes of the blocks that they link. -/
structure Tally.Exceeds (overflow : Overflow) (t : Tally) (cells : List Cell) (e : Halt) : Prop where
  eq_abort : e = .abort
  overflow_eq : overflow = .breaksOff
  limit_le : wordLimit ≤ t.reachable.toNat + linkedBytes cells

namespace Tally

variable {overflow : Overflow} {rootSize : Nat} {f : File} {t t' t'' : Tally}
  {cells cells' : List Cell} {e : Halt}

theorem Accepts.left (h : t.Accepts rootSize f (cells ++ cells')) : t.Accepts rootSize f cells where
  fits c hc := h.fits c (List.mem_append_left _ hc)
  nodup := (List.nodup_append.mp (follows_append .. ▸ h.nodup)).1
  fresh x hx := h.fresh x (follows_append .. ▸ List.mem_append_left _ hx)

/-- What is behind cells that have been counted. -/
theorem Accepts.right (h : t.Accepts rootSize f (cells ++ cells')) (hcounts : t.Counts t' cells) :
    t'.Accepts rootSize f cells' := by
  obtain ⟨hfits, hnodup, hfresh⟩ := h
  rw [follows_append] at hnodup hfresh
  obtain ⟨-, hnodup', hdisjoint⟩ := List.nodup_append.mp hnodup
  refine ⟨fun c hc => hfits c (List.mem_append_right _ hc), hnodup', fun x hx hvisited => ?_⟩
  rcases (hcounts.visited x).mp hvisited with hvisited | hx'
  · exact hfresh x (List.mem_append_right _ hx) hvisited
  · exact hdisjoint x hx' x hx rfl

theorem Accepts.append (h : t.Accepts rootSize f cells) (hcounts : t.Counts t' cells)
    (h' : t'.Accepts rootSize f cells') : t.Accepts rootSize f (cells ++ cells') where
  fits := List.forall_mem_append.mpr ⟨h.fits, h'.fits⟩
  nodup := by
    rw [follows_append]
    refine List.nodup_append.mpr ⟨h.nodup, h'.nodup, fun x hx y hy heq => ?_⟩
    exact h'.fresh y hy ((hcounts.visited y).mpr (.inr (heq ▸ hx)))
  fresh := by
    rw [follows_append]
    refine List.forall_mem_append.mpr ⟨h.fresh, fun x hx hvisited => ?_⟩
    exact h'.fresh x hx ((hcounts.visited x).mpr (.inl hvisited))

theorem Counts.trans (h : t.Counts t' cells) (h' : t'.Counts t'' cells') :
    t.Counts t'' (cells ++ cells') where
  visited x := by rw [h'.visited, h.visited, follows_append, List.mem_append, or_assoc]
  blocks := by rw [h'.blocks, h.blocks, linkedBlocks_append, Nat.add_assoc]
  reachable := by
    rw [h'.reachable, h.reachable, linkedBytes_append, UInt64.ofNat_add, UInt64.add_assoc]

theorem Audits.trans (h : t.Audits rootSize f t' cells) (h' : t'.Audits rootSize f t'' cells') :
    t.Audits rootSize f t'' (cells ++ cells') := by
  obtain ⟨new, hnew, hclean, hshared⟩ := h.findings
  obtain ⟨new', hnew', hclean', hshared'⟩ := h'.findings
  have hboth : t''.findings = new' ++ new ++ t.findings := by
    rw [hnew', hnew, List.append_assoc]
  refine ⟨⟨new' ++ new, hboth, fun haccepts => ?_, fun hfits => ?_⟩, fun heq => ?_, ?_⟩
  · obtain rfl := hclean haccepts.left
    rw [hclean' (haccepts.right (h.counts hnew).2), List.append_nil]
  · obtain ⟨hfits, hfits'⟩ := List.forall_mem_append.mp hfits
    exact List.forall_mem_append.mpr ⟨hshared' hfits', hshared hfits⟩
  · have hnil : new' ++ new = [] := List.append_left_eq_self.mp (hboth.symm.trans heq)
    obtain ⟨rfl, rfl⟩ := List.append_eq_nil_iff.mp hnil
    obtain ⟨haccepts, hcounts⟩ := h.counts hnew
    obtain ⟨haccepts', hcounts'⟩ := h'.counts hnew'
    exact ⟨haccepts.append hcounts haccepts', hcounts.trans hcounts'⟩
  · have hle := h.reachable_le
    have hle' := h'.reachable_le
    rw [linkedBytes_append]
    omega

theorem Exceeds.left (h : t.Exceeds overflow cells e) (cells' : List Cell) :
    t.Exceeds overflow (cells ++ cells') e where
  eq_abort := h.eq_abort
  overflow_eq := h.overflow_eq
  limit_le := by
    have := h.limit_le
    rw [linkedBytes_append]
    omega

/-- What breaks off behind cells that have been audited. -/
theorem Audits.exceeds (h : t.Audits rootSize f t' cells) (h' : t'.Exceeds overflow cells' e) :
    t.Exceeds overflow (cells ++ cells') e where
  eq_abort := h'.eq_abort
  overflow_eq := h'.overflow_eq
  limit_le := by
    have hle := h.reachable_le
    have hlimit := h'.limit_le
    rw [linkedBytes_append]
    omega

/-- Cells that are accepted have been visited and counted when they have been audited. -/
theorem Audits.counts_of_accepts (h : t.Audits rootSize f t' cells)
    (haccepts : t.Accepts rootSize f cells) : t.Counts t' cells := by
  obtain ⟨new, hnew, hclean, -⟩ := h.findings
  obtain rfl := hclean haccepts
  exact (h.counts hnew).2

/-- Cells that are in order and link nothing may be passed over. -/
theorem Audits.of_unlinked (h : ∀ c ∈ cells, c.target = 0 ∧ c.Fits rootSize f) :
    t.Audits rootSize f t cells := by
  have hunlinked : ∀ c ∈ cells, c.target = 0 := fun c hc => (h c hc).1
  have htrail := follows_of_unlinked hunlinked
  refine ⟨⟨[], rfl, fun _ => rfl, by simp⟩,
    fun _ => ⟨⟨fun c hc => (h c hc).2, ?_, ?_⟩, ?_, ?_, ?_⟩, Nat.le_add_right ..⟩
  · rw [htrail]
    exact List.nodup_nil
  · simp [htrail]
  · simp [htrail]
  · rw [linkedBlocks_of_unlinked hunlinked, Nat.add_zero]
  · rw [linkedBytes_of_unlinked hunlinked]
    exact (UInt64.add_zero _).symm

/-- A finding is noted where the cells are not accepted. -/
theorem Audits.note {a : ArrayLayout} {offset : Nat} {fault : Fault}
    (hnot : ¬ t.Accepts rootSize f cells)
    (hshared : (∀ c ∈ cells, c.Fits rootSize f) → ∃ block, fault = .sharedBlock block) :
    t.Audits rootSize f (Audit.note a offset fault t) cells := by
  refine ⟨⟨[⟨offset, a.name, fault⟩], rfl, fun haccepts => absurd haccepts hnot, fun hfits => ?_⟩,
    fun heq => ?_, Nat.le_add_right ..⟩
  · exact List.forall_mem_singleton.mpr (hshared hfits)
  · exact absurd heq (List.cons_ne_self _ _)

/-- A link that must not be followed. -/
theorem Audits.badLink {a : ArrayLayout} {block next offset : Nat} {e : Error}
    (hnot : ¬ (Cell.link a block next).Fits rootSize f) :
    t.Audits rootSize f (Audit.note a offset (.badLink e) t) [.link a block next] :=
  .note (fun haccepts => hnot (haccepts.fits _ (List.mem_singleton_self _)))
    fun hfits => absurd (hfits _ (List.mem_singleton_self _)) hnot

/-- A link to a block that was visited before. What is behind it is not looked at. -/
theorem Audits.sharedBlock {a : ArrayLayout} {block next offset : Nat} (hne : next ≠ 0)
    (hvisited : next ∈ t.visited) : t.Audits rootSize f
      (Audit.note a offset (.sharedBlock next) t) (.link a block next :: cells) := by
  have hmem : next ∈ follows (.link a block next :: cells) := by
    rw [← List.singleton_append, follows_append, follows_link hne]
    exact List.mem_cons_self ..
  exact .note (fun haccepts => haccepts.fresh next hmem hvisited) fun _ => ⟨next, rfl⟩

/-- A block is visited. -/
theorem Audits.visit {a : ArrayLayout} {block next : Nat}
    (hfits : (Cell.link a block next).Fits rootSize f) (hne : next ≠ 0)
    (hnew : next ∉ t.visited) : t.Audits rootSize f { t with
      visited := t.visited.insert next
      blocks := t.blocks + 1
      reachable := t.reachable + .ofNat a.size } [.link a block next] := by
  have htrail : follows [.link a block next] = [next] := follows_link hne
  have hbytes : linkedBytes [.link a block next] = a.size := by
    simp [linkedBytes, Cell.target, Cell.blockSize, hne]
  refine ⟨⟨[], rfl, fun _ => rfl, by simp⟩, fun _ => ⟨⟨?_, ?_, ?_⟩, fun x => ?_, ?_, ?_⟩, ?_⟩
  · exact List.forall_mem_singleton.mpr hfits
  · rw [htrail]
    exact List.nodup_singleton next
  · simpa [htrail] using hnew
  · rw [htrail, Std.HashSet.mem_insert, List.mem_singleton, beq_iff_eq, or_comm, eq_comm (a := x)]
  · simp [linkedBlocks, Cell.target, hne]
  · rw [hbytes]
  · rw [hbytes, UInt64.toNat_add, UInt64.toNat_ofNat']
    omega

/-- A block that is linked has more bytes than can be counted. -/
theorem Exceeds.of_link {a : ArrayLayout} {block next : Nat} (hne : next ≠ 0)
    (hoverflow : overflow = .breaksOff) (hlimit : wordLimit ≤ t.reachable.toNat + a.size) :
    t.Exceeds overflow [.link a block next] .abort where
  eq_abort := rfl
  overflow_eq := hoverflow
  limit_le := by simpa [linkedBytes, Cell.target, Cell.blockSize, hne] using hlimit

end Tally

/-- Where no chained array occurs, no block is linked, and all is in order. -/
theorem Layout.WellFormed.unlinked {l : Layout} (hw : l.WellFormed) (h : l.hasChain = false)
    (rootSize : Nat) {f : File} {offset : Nat} (hle : offset + l.size ≤ f.size) :
    ∀ c ∈ l.cells rootSize f offset, c.target = 0 ∧ c.Fits rootSize f := by
  induction hw generalizing offset with
  | scalar kind =>
    rw [cells_scalar]
    exact List.forall_mem_singleton.mpr ⟨rfl, hle⟩
  | @record r own _ ih =>
    have hall : r.hasChain = false := h
    rw [own.hasChain_eq, List.any_eq_false] at hall
    rw [cells_record]
    intro c hc
    obtain ⟨p, hp, hc⟩ := List.mem_flatMap.mp hc
    have hin := ((own.places_packed offset).le_of_mem hp).2
    obtain ⟨field, hfield, rfl⟩ := List.mem_map.mp hp
    exact ih field hfield (by simpa using hall field hfield) (Nat.le_trans hin hle) c hc
  | @array a own _ ih =>
    obtain ⟨element, capacity, extent, size, capacity_pos⟩ := a
    cases extent with
    | chained => cases h
    | fixed =>
      rw [cells_array_of_none (File.next?_of_fixed rfl)]
      intro c hc
      simp only [ArrayLayout.linkCells, List.append_nil] at hc
      obtain ⟨p, hp, hc⟩ := List.mem_flatMap.mp hc
      have hin := ArrayLayout.places_le own p hp
      obtain ⟨i, -, rfl⟩ := List.mem_map.mp hp
      exact ih h (Nat.le_trans hin hle) c hc

/-- The links of cells that are sound lead to different blocks. -/
theorem Sound.follows_nodup {rootSize : Nat} {f : File} {cells : List Cell}
    (hs : Sound rootSize f cells) : (follows cells).Nodup := by
  have hapart := hs.apart
  clear hs
  induction cells with
  | nil => exact List.nodup_nil
  | cons c cells ih =>
    obtain ⟨hc, hapart⟩ := List.pairwise_cons.mp hapart
    rw [← List.singleton_append, follows_append]
    by_cases hzero : c.target = 0
    · rw [follows_of_unlinked (by simpa using hzero)]
      exact ih hapart
    · have hone : follows [c] = [c.target] := by simp [follows, hzero]
      rw [hone, List.singleton_append]
      refine List.nodup_cons.mpr ⟨fun hmem => ?_, ih hapart⟩
      obtain ⟨c', hc', htarget⟩ := List.mem_map.mp (List.mem_of_mem_filter hmem)
      exact hzero ((hc c' hc').2 htarget.symm)

namespace Audit

variable {δ : Type} [Device δ] [LawfulDevice δ] {rootSize : Nat} {s : Session δ}

/-- An action that does not break off, with its error as a result. -/
theorem reads_attempt (hinf : LawfulDevice.infallible δ) {α : Type} {m : Action (Session δ) α}
    {Q : α → Prop} {E E' : Halt → Prop} (h : Reads s m Q E) (hE : ∀ e, E e → e.IsError) :
    Reads s (attempt m) (fun result => match result with
      | .ok a => Q a
      | .error e => E (.error e)) E' := by
  intro s₁ hs₁
  have hm := h s₁ hs₁
  unfold WP attempt at *
  cases hrun : m s₁ with
  | ok a s' =>
    rw [hrun] at hm
    exact hm
  | error e s' =>
    rw [hrun] at hm
    have he := hm.2 hinf
    obtain ⟨cause, rfl⟩ := hE e he
    exact ⟨hm.1, he⟩

/-- `m` audits the cells, from any tally on, or breaks off because the blocks that they link have too
many bytes. -/
def Covers (overflow : Overflow) (rootSize : Nat) (s : Session δ)
    (m : Tally → Action (Session δ) Tally) (cells : List Cell) : Prop :=
  ∀ t : Tally, Reads s (m t) (fun t' => t.Audits rootSize s.file t' cells)
    (t.Exceeds overflow cells)

namespace Covers

variable {overflow : Overflow} {m m' : Tally → Action (Session δ) Tally} {cells cells' : List Cell}

/-- Cells that are in order and link nothing may be passed over. -/
theorem pass (h : ∀ c ∈ cells, c.target = 0 ∧ c.Fits rootSize s.file) :
    Covers overflow rootSize s pure cells := fun _ => .pure (.of_unlinked h)

theorem bind (h : Covers overflow rootSize s m cells) (h' : Covers overflow rootSize s m' cells') :
    Covers overflow rootSize s (fun t => m t >>= m') (cells ++ cells') := fun t =>
  .bind ((h t).mono (fun _ h => h) fun _ h => h.left cells') fun t₁ h₁ =>
    (h' t₁).mono (fun _ h => h₁.trans h) fun _ h => h₁.exceeds h

end Covers

section

variable {overflow : Overflow}

/-- Slots are audited one after the other. -/
theorem covers_visitSlots {a : ArrayLayout} (own : a.WellFormed) {block : Nat} (hfit : s.Fits)
    (hle : block + a.size ≤ s.file.size) {item : Nat → Tally → Action (Session δ) Tally}
    (hitem : ∀ p ∈ a.places block,
      Covers overflow rootSize s (item p.2) (p.1.cells rootSize s.file p.2))
    {left index : Nat} (hcount : index + left = a.capacity) :
    Covers overflow rootSize s (visitSlots a item block left index)
      (rowCells rootSize s.file ((a.places block).drop index)) := by
  induction left generalizing index with
  | zero =>
    rw [List.drop_eq_nil_of_le (by simp; omega)]
    exact .pass (by simp)
  | succ left ih =>
    have hindex : index < a.capacity := by omega
    have hplace := a.drop_places hindex block
    have hmem : (a.element, block + index * a.element.size) ∈ a.places block :=
      List.mem_of_mem_drop (hplace ▸ List.mem_cons_self ..)
    rw [hplace, rowCells_cons]
    intro t
    rw [visitSlots, a.slotOffset?_eq own hindex (Nat.lt_of_le_of_lt hle hfit), orAbort_some_bind]
    exact (hitem _ hmem).bind (ih (by omega)) t

/-- A block that has not been visited is counted, if it can be. -/
theorem reads_link {a : ArrayLayout} {block next : Nat}
    (hfits : (Cell.link a block next).Fits rootSize s.file) (hne : next ≠ 0) {t : Tally}
    (hnew : next ∉ t.visited) {m : Tally → Action (Session δ) Tally} {cells : List Cell}
    (h : Covers overflow rootSize s m cells) :
    Reads s (do
        let reachable ← orAbort (overflow.add t.reachable a.size)
        m { t with visited := t.visited.insert next, blocks := t.blocks + 1, reachable })
      (fun t' => t.Audits rootSize s.file t' (.link a block next :: cells))
      (t.Exceeds overflow (.link a block next :: cells)) := by
  rw [← List.singleton_append]
  rcases overflow.add_cases t.reachable a.size with hsome | ⟨hoverflow, hnone, hlimit⟩
  · have hvisit := Tally.Audits.visit hfits hne hnew
    rw [hsome, orAbort_some_bind]
    exact (h _).mono (fun _ h => hvisit.trans h) fun _ h => hvisit.exceeds h
  · rw [hnone]
    exact fun s₁ hs₁ => ⟨hs₁, fun _ => (Tally.Exceeds.of_link hne hoverflow hlimit).left cells⟩

/-- A chain is audited block by block. -/
theorem covers_visitChain {a : ArrayLayout} (own : a.WellFormed) (hext : a.extent = .chained)
    (hinf : LawfulDevice.infallible δ) (hfit : s.Fits) {block : Nat}
    {slots : Nat → Tally → Action (Session δ) Tally}
    (hslots : ∀ b ∈ s.file.chain rootSize a block,
      Covers overflow rootSize s (slots b) (rowCells rootSize s.file (a.places b)))
    (hle : block + a.size ≤ s.file.size) :
    Covers overflow rootSize s (visitChain overflow rootSize a slots block)
      ((a.part rootSize block).cells s.file) := by
  -- Links that may be followed lead on towards the end of the file.
  induction h : s.file.size - block using Nat.strongRecOn generalizing block with
  | ind n ih =>
    subst h
    have hlink := a.linkOffset_le own hext hle
    have hpos : linkSize = 8 := rfl
    have hoffset : a.linkOffset? block = some (a.linkOffset block) :=
      checkedAdd_eq_some_iff.mpr ⟨rfl, Nat.lt_of_le_of_lt (by omega) hfit⟩
    have hsize := own.size_of_chained hext
    have hcells : a.linkCells s.file block = [.link a block (s.file.link a block)] := by
      rw [ArrayLayout.linkCells, hext]
    have hfollow : Reads s (Chain.follow rootSize a block) _ _ :=
      Chain.reads_follow own hext hfit hle
    intro t
    rw [visitChain]
    have hrow := hslots block (File.mem_chain_self ..) t
    have hattempt : Reads s (attempt (Chain.follow rootSize a block)) _
        (t.Exceeds overflow ((a.part rootSize block).cells s.file)) :=
      reads_attempt hinf hfollow fun e he => he.1 ▸ (File.isCorruption_badLink ..).isError
    cases hnext : s.file.next? rootSize a block with
    | none =>
      have hsplit : (a.part rootSize block).cells s.file =
          rowCells rootSize s.file (a.places block) ++ [.link a block (s.file.link a block)] :=
        hcells ▸ Layout.cells_array_of_none hnext
      rw [hsplit] at hattempt ⊢
      refine .bind (hrow.mono (fun _ h => h) fun _ h => h.left _) fun t₁ h₁ => ?_
      rw [hoffset, orAbort_some_bind]
      refine .bind hattempt fun found hfound => ?_
      -- The link must not be followed, or it is zero.
      obtain e | (_ | ⟨next, hlt⟩) := found
      · exact .pure (h₁.trans (.badLink hfound.2))
      · obtain ⟨-, hfits⟩ := hfound
        have hzero := hfits.link_eq_zero hext hnext
        exact .pure (h₁.trans (.of_unlinked (List.forall_mem_singleton.mpr ⟨hzero, hfits⟩)))
      · cases hnext.symm.trans hfound.1.symm
    | some next =>
      have hsplit : (a.part rootSize block).cells s.file =
          rowCells rootSize s.file (a.places block) ++
            (.link a block next :: (a.part rootSize next).cells s.file) :=
        Layout.cells_array_of_some hnext
      obtain ⟨-, hlink', hleads⟩ := File.next?_eq_some_iff.mp hnext
      rw [hsplit] at hattempt ⊢
      refine .bind (hrow.mono (fun _ h => h) fun _ h => h.left _) fun t₁ h₁ => ?_
      rw [hoffset, orAbort_some_bind]
      refine .bind hattempt fun found hfound => ?_
      -- The link leads to the next block.
      obtain e | (_ | ⟨next', hlt⟩) := found
      · exact absurd (Cell.fits_of_next? hsize hle hnext) hfound.2
      · cases hnext.symm.trans hfound.1.symm
      · obtain rfl : next = next' := Option.some.inj (hnext.symm.trans hfound.1.symm)
        have hfits := hfound.2
        rw [hlink'] at hfits
        dsimp only
        split
        · rename_i hvisited
          exact .pure (h₁.trans
            (.sharedBlock hleads.ne_zero (Std.HashSet.mem_iff_contains.mpr hvisited)))
        · rename_i hnew
          rw [File.chain_of_some hnext] at hslots
          have hbehind := ih _ (by have := hleads.2.2; omega)
            (fun b hb => hslots b (List.mem_cons_of_mem _ hb)) hleads.2.2 rfl
          exact (reads_link hfits hleads.ne_zero (mt Std.HashSet.mem_iff_contains.mp hnew)
            hbehind).mono (fun _ h => h₁.trans h) fun _ h => h₁.exceeds h

/-- Fields are audited one after the other. -/
theorem covers_visitFields {fields : List FieldLayout} {base : Nat}
    (hlt : ∀ f ∈ fields, base + f.offset < wordLimit)
    (hvisit : ∀ f ∈ fields, Covers overflow rootSize s
      (visit overflow rootSize f.layout (base + f.offset))
      (f.layout.cells rootSize s.file (base + f.offset))) :
    Covers overflow rootSize s (visitFields overflow rootSize fields base)
      (rowCells rootSize s.file (fields.map fun f => (f.layout, base + f.offset))) := by
  induction fields with
  | nil =>
    intro t
    rw [visitFields]
    exact Covers.pass (by simp) t
  | cons field rest ih =>
    obtain ⟨name, layout, offset⟩ := field
    obtain ⟨hlt₁, hlt⟩ := List.forall_mem_cons.mp hlt
    obtain ⟨hvisit₁, hvisit⟩ := List.forall_mem_cons.mp hvisit
    rw [List.map_cons, rowCells_cons]
    intro t
    rw [visitFields, checkedAdd_eq_some_iff.mpr ⟨rfl, hlt₁⟩, orAbort_some_bind]
    exact hvisit₁.bind (ih hlt hvisit) t

/-- A part is audited cell by cell, but for those that cannot link anything. -/
theorem covers_visit (hinf : LawfulDevice.infallible δ) (hfit : s.Fits) {l : Layout}
    (hw : l.WellFormed) {base : Nat} (hle : base + l.size ≤ s.file.size) :
    Covers overflow rootSize s (visit overflow rootSize l base)
      (l.cells rootSize s.file base) := by
  induction hw generalizing base with
  | scalar kind =>
    intro t
    rw [visit]
    exact Covers.pass ((Layout.WellFormed.scalar kind).unlinked rfl rootSize hle) t
  | @record r own fields ih =>
    have hunlinked := (Layout.WellFormed.record own fields).unlinked
    have hin : ∀ f ∈ r.fields, base + f.offset + f.layout.size ≤ s.file.size := fun f hf =>
      Nat.le_trans ((own.places_packed base).le_of_mem (List.mem_map_of_mem hf)).2 hle
    have hvisit : Covers overflow rootSize s (visitFields overflow rootSize r.fields base) _ :=
      covers_visitFields
        (fun f hf => Nat.lt_of_le_of_lt (Nat.le_trans (Nat.le_add_right ..) (hin f hf)) hfit)
        fun f hf => ih f hf (hin f hf)
    obtain ⟨name, fields, size, hasChain⟩ := r
    intro t
    rw [visit]
    cases hasChain with
    | true => exact Layout.cells_record _ base ▸ hvisit t
    | false => exact Covers.pass (hunlinked rfl rootSize hle) t
  | @array a own he ih =>
    have hslots : ∀ b ∈ s.file.chain rootSize a base, Covers overflow rootSize s
        (fun t => if a.element.hasChain then
          visitSlots a (visit overflow rootSize a.element) b a.capacity 0 t else pure t)
        (rowCells rootSize s.file (a.places b)) := by
      intro b hb
      have hin := ArrayLayout.block_le hle b hb
      have hplace : ∀ p ∈ a.places b, p.1 = a.element ∧ p.2 + a.element.size ≤ s.file.size :=
        fun p hp => by
          have hp' := Nat.le_trans (ArrayLayout.places_le own p hp) hin
          obtain ⟨i, -, rfl⟩ := List.mem_map.mp hp
          exact ⟨rfl, hp'⟩
      split
      · refine covers_visitSlots own hfit hin (fun p hp => ?_) (Nat.zero_add _)
        obtain ⟨hlayout, hp⟩ := hplace p hp
        rw [hlayout]
        exact ih hp
      · rename_i hchain
        refine .pass fun c hc => ?_
        obtain ⟨p, hp, hc⟩ := List.mem_flatMap.mp hc
        obtain ⟨hlayout, hp⟩ := hplace p hp
        rw [hlayout] at hc
        exact he.unlinked (by simpa using hchain) rootSize hp c hc
    obtain ⟨element, capacity, extent, size, capacity_pos⟩ := a
    intro t
    unfold visit
    cases extent with
    | fixed =>
      have hnext : s.file.next? rootSize ⟨element, capacity, .fixed, size, capacity_pos⟩ base = none :=
        File.next?_of_fixed rfl
      have hcells := Layout.cells_array_of_none hnext
      simp only [ArrayLayout.linkCells, List.append_nil] at hcells
      rw [hcells]
      exact hslots base (File.mem_chain_self ..) t
    | chained => exact covers_visitChain own rfl hinf hfit hslots hle t

end

end Audit

/-- What a report says of a file with some cells. Its bytes are counted in a word. -/
structure Report.Describes (schema : Schema) (f : File) (cells : List Cell) (r : Report) : Prop where
  clean_iff : r.isClean = true ↔ (∀ c ∈ cells, c.Fits schema.size f) ∧ (follows cells).Nodup
  blocks_eq : r.isClean = true → r.blocks = linkedBlocks cells
  reachable_eq : r.isClean = true → r.reachable = (schema.size + linkedBytes cells) % wordLimit
  unreferenced_eq : r.unreferenced = f.size - r.reachable
  shared : (∀ c ∈ cells, c.Fits schema.size f) →
    ∀ finding ∈ r.findings, ∃ block, finding.fault = .sharedBlock block

/-- An audit of a file tells what is wrong with its cells, and counts the blocks that they link if
nothing is, or it breaks off because the blocks have too many bytes. -/
theorem Audit.reads_run {δ : Type} [Device δ] [LawfulDevice δ] {s : Session δ}
    (hinf : LawfulDevice.infallible δ) {schema : Schema} (hfit : s.Fits)
    (hw : schema.rootLayout.WellFormed) (hle : schema.size ≤ s.file.size) (overflow : Overflow) :
    Reads s (run overflow schema)
      (·.Describes schema s.file (schema.rootLayout.cells schema.size s.file 0))
      (Tally.Exceeds overflow { reachable := .ofNat schema.size }
        (schema.rootLayout.cells schema.size s.file 0)) := by
  rw [run]
  refine .bind (covers_visit hinf hfit hw (Nat.le_of_eq (Nat.zero_add _) |>.trans hle) _)
    fun t ht => ?_
  have hsize : Reads s Session.size (· = s.file.size) fun _ => False := fun s₁ hs₁ =>
    (wp_size s₁).mono (fun n s' h => ⟨hs₁.trans h.1, h.2.trans (by rw [hs₁.file_eq])⟩)
      fun _ s' h => ⟨hs₁.trans h.1, h.2⟩
  refine .bind (reads_attempt hinf hsize fun _ h => h.elim) fun found hfound => ?_
  cases found with
  | error e => exact hfound.elim
  | ok size =>
    obtain rfl := hfound
    obtain ⟨new, hnew, hclean, hshared⟩ := ht.findings
    have hcounts := ht.counts
    simp only [List.append_nil] at hnew hcounts
    have hempty : (List.reverse t.findings).isEmpty = true ↔ t.findings = [] := by simp
    have haudited (hclean : (List.reverse t.findings).isEmpty = true) := hcounts (hempty.mp hclean)
    refine .pure ⟨⟨fun h => ⟨(haudited h).1.fits, (haudited h).1.nodup⟩, fun h => ?_⟩,
      fun h => ?_, fun h => ?_, rfl, fun hfits finding hmem => ?_⟩
    · exact hempty.mpr (hnew.trans (hclean ⟨h.1, h.2, by simp⟩))
    · rw [(haudited h).2.blocks, Nat.zero_add]
    · rw [(haudited h).2.reachable, ← UInt64.ofNat_add]
      rfl
    · exact hshared hfits finding (hnew ▸ List.mem_reverse.mp hmem)

end RecordFile
