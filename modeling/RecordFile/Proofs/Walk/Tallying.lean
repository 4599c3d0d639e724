import RecordFile.Proofs.Walk.Auditing
import RecordFile.Proofs.Walk.Visiting

/-!
# How much an audit looks at

Where sums wrap around, an audit of any file, be it shorter than the root record, gives a report, and reads
what a walk through the root may visit. It visits no block twice, and only blocks behind the root record and inside the file
(`Tally.Inside`), so it counts no more of them than there are bytes behind the root record
(`Audit.visiting_run`).
-/

namespace RecordFile

open Session

/-- The blocks that are counted are those that were visited, and lie between the root record and the end
of the file. -/
structure Tally.Inside (rootSize fileSize : Nat) (t : Tally) : Prop where
  blocks_eq : t.blocks = t.visited.size
  inside : ∀ x ∈ t.visited, rootSize ≤ x ∧ x < fileSize

namespace Tally.Inside

variable {rootSize fileSize : Nat} {t : Tally}

theorem empty (rootSize fileSize : Nat) (reachable : UInt64) :
    Inside rootSize fileSize { reachable := reachable } :=
  ⟨by simp, by simp⟩

theorem note (h : t.Inside rootSize fileSize) (a : ArrayLayout) (linkOffset : Nat) (fault : Fault) :
    (Audit.note a linkOffset fault t).Inside rootSize fileSize :=
  ⟨h.blocks_eq, h.inside⟩

/-- A block is visited that was not visited before. -/
theorem visit (h : t.Inside rootSize fileSize) (reachable : UInt64) {next : Nat} (hnew : next ∉ t.visited)
    (hroot : rootSize ≤ next) (hlt : next < fileSize) : Inside rootSize fileSize { t with
      visited := t.visited.insert next
      blocks := t.blocks + 1
      reachable } where
  blocks_eq := by
    show t.blocks + 1 = (t.visited.insert next).size
    rw [Std.HashSet.size_insert, if_neg hnew, h.blocks_eq]
  inside x hx := by
    rcases Std.HashSet.mem_insert.mp hx with heq | hx
    · obtain rfl := eq_of_beq heq
      exact ⟨hroot, hlt⟩
    · exact h.inside x hx

/-- There are no more blocks than there is room for behind the root record. -/
theorem blocks_le (h : t.Inside rootSize fileSize) : t.blocks ≤ fileSize - rootSize := by
  rw [h.blocks_eq, ← Std.HashSet.length_toList]
  refine length_le_of_nodup ?_ fun x hx => h.inside x (Std.HashSet.mem_toList.mp hx)
  exact Std.HashSet.distinct_toList.imp fun hne heq => by simp [heq] at hne

end Tally.Inside

namespace Audit

variable {δ : Type} [Device δ] [LawfulDevice δ] {R : List Nat → Session δ → Session δ → Prop}
  [FullTrail R] {s : Session δ} {limit rootSize : Nat}

/-- What an audit of a place reads and counts. -/
def Visits (R : List Nat → Session δ → Session δ → Prop) (rootSize limit : Nat) (s : Session δ)
    (l : Layout) : Prop :=
  ∀ (base : Nat) (t : Tally), base + l.size ≤ limit → t.Inside rootSize s.file.size →
    Visiting R s (visit .wraps rootSize l base t)
      (fun t' log => l.Visits rootSize s.file.size base log ∧ t'.Inside rootSize s.file.size)
      fun _ => False

/-- Slots are audited one after the other. -/
theorem visiting_visitSlots {a : ArrayLayout} (hs : s.Steady limit) (own : a.WellFormed)
    {item : Nat → Tally → Action (Session δ) Tally} {block : Nat} (hle : block + a.size ≤ limit)
    (hitem : ∀ offset t, offset + a.element.size ≤ limit → t.Inside rootSize s.file.size →
      Visiting R s (item offset t) (fun t' log => a.element.Visits rootSize s.file.size offset log ∧
        t'.Inside rootSize s.file.size) fun _ => False)
    {left index : Nat} (hcount : index + left = a.capacity) {t : Tally}
    (ht : t.Inside rootSize s.file.size) :
    Visiting R s (visitSlots a item block left index t)
      (fun t' log => RowVisits rootSize s.file.size ((a.places block).drop index) log ∧
        t'.Inside rootSize s.file.size) fun _ => False := by
  induction left generalizing index t with
  | zero =>
    rw [visitSlots]
    exact .pure ⟨.stop _, ht⟩
  | succ left ih =>
    have hindex : index < a.capacity := by omega
    have hslot := a.slot_le hindex
    have hsize := own.slotsSize_le
    rw [visitSlots, a.slotOffset?_eq own hindex (hle.trans_lt hs.limit_lt), orAbort_some_bind,
      a.drop_places hindex]
    refine .bind (hitem _ t (by omega) ht) fun t₁ log h => ?_
    exact (ih (by omega) h.2).mono (fun _ _ h' => ⟨.cons h.1 h'.1, h'.2⟩) fun _ h => h

/-- A chain is audited block by block, each where a link leads to that was not visited before. -/
theorem visiting_visitChain {a : ArrayLayout} (hs : s.Steady limit) (own : a.WellFormed)
    (hext : a.extent = .chained) {slots : Nat → Tally → Action (Session δ) Tally}
    (hslots : ∀ block t, block + a.size ≤ limit → t.Inside rootSize s.file.size →
      Visiting R s (slots block t) (fun t' log => RowVisits rootSize s.file.size (a.places block) log ∧
        t'.Inside rootSize s.file.size) fun _ => False)
    {block : Nat} (hle : block + a.size ≤ limit) {t : Tally} (ht : t.Inside rootSize s.file.size) :
    Visiting R s (visitChain .wraps rootSize a slots block t)
      (fun t' log => (Layout.array a).Visits rootSize s.file.size block log ∧
        t'.Inside rootSize s.file.size) fun _ => False := by
  -- Links lead on towards the end of the words.
  induction h : wordLimit - block using Nat.strongRecOn generalizing block t with
  | ind n ih =>
    subst h
    have hlink : linkSize ≤ a.size := own.size_of_chained hext ▸ Nat.le_add_left ..
    rw [visitChain]
    refine .bind (hslots block t hle ht) fun t₁ row h => ?_
    obtain ⟨hrow, ht₁⟩ := h
    have hleft : (Layout.array a).Visits rootSize s.file.size block (row ++ [a.linkOffset block]) :=
      Layout.Visits.block ⟨block, false, row, true⟩ hrow
    have hstop : (Layout.array a).Visits rootSize s.file.size block (row ++ []) := by
      rw [List.append_nil]
      exact .of_row hrow
    rw [hs.linkOffset?_eq own hext hle, orAbort_some_bind]
    refine .bind (Chain.visiting_follow hs own hext hle).attempt fun found log h => ?_
    -- The link must not be followed, is zero, leads to a block that was visited, or to a new one.
    obtain e | (_ | ⟨next, hnext⟩) := found
    · refine .pure ⟨?_, ht₁.note ..⟩
      rw [List.append_nil]
      rcases h with rfl | rfl
      · exact hstop
      · exact hleft
    · obtain ⟨rfl, -⟩ := h
      exact .pure ⟨hleft, ht₁⟩
    · obtain ⟨rfl, hfound⟩ := h
      obtain ⟨hroot, hin⟩ := hfound ⟨next, hnext⟩ rfl
      simp only
      split
      · exact .pure ⟨hleft, ht₁.note ..⟩
      · rename_i hnew
        have ht₂ := ht₁.visit (t₁.reachable + .ofNat a.size)
          (fun hmem => hnew (Std.HashSet.contains_iff_mem.mpr hmem)) hroot
          (Nat.lt_of_lt_of_le (Nat.lt_add_of_pos_right (by unfold linkSize at hlink; omega)) hin)
        refine (ih (wordLimit - next) (by omega) (hin.trans hs.size_le) ht₂ rfl).mono
          (fun _ more h => ⟨?_, h.2⟩) fun _ h => h
        rw [← List.append_assoc]
        exact Layout.Visits.cons_block ⟨block, false, row, true⟩ hrow hext hnext.1 hroot hin h.1

theorem visiting_visitFields {fields : List FieldLayout} {base length : Nat} (hs : s.Steady limit)
    (hle : ∀ f ∈ fields, f.offset + f.layout.size ≤ length) (hbase : base + length ≤ limit)
    (hvisits : ∀ f ∈ fields, Visits R rootSize limit s f.layout) {t : Tally}
    (ht : t.Inside rootSize s.file.size) :
    Visiting R s (visitFields .wraps rootSize fields base t)
      (fun t' log => RowVisits rootSize s.file.size
        (fields.map fun f => (f.layout, base + f.offset)) log ∧ t'.Inside rootSize s.file.size)
      fun _ => False := by
  induction fields generalizing t with
  | nil =>
    rw [visitFields]
    exact .pure ⟨.stop _, ht⟩
  | cons field rest ih =>
    obtain ⟨name, layout, offset⟩ := field
    obtain ⟨hle₁, hle⟩ := List.forall_mem_cons.mp hle
    obtain ⟨hvisit, hvisits⟩ := List.forall_mem_cons.mp hvisits
    replace hle₁ : offset + layout.size ≤ length := hle₁
    replace hvisit : Visits R rootSize limit s layout := hvisit
    have hlimit := hs.limit_lt
    rw [visitFields, checkedAdd_eq_some_iff.mpr ⟨rfl, (by omega : base + offset < wordLimit)⟩,
      orAbort_some_bind, List.map_cons]
    refine .bind (hvisit (base + offset) t (by omega) ht) fun t₁ log h => ?_
    exact (ih hle hvisits h.2).mono (fun _ _ h' => ⟨.cons h.1 h'.1, h'.2⟩) fun _ h => h

/-- Auditing visits the place and what its links lead to. -/
theorem visiting_visit {l : Layout} (hs : s.Steady limit) (hw : l.WellFormed) :
    Visits R rootSize limit s l := by
  induction hw with
  | scalar kind =>
    intro base t _ ht
    rw [visit]
    exact .pure ⟨.stop _ base, ht⟩
  | @record r own _ ih =>
    intro base t hle ht
    have hfields := visiting_visitFields (R := R) hs (fun f hf => (own.packed.le_of_mem hf).2) hle ih ht
    have hrecord {log : List Nat} : RowVisits rootSize s.file.size (r.places base) log →
        (Layout.record r).Visits rootSize s.file.size base log := .record
    obtain ⟨name, fields, size, hasChain⟩ := r
    rw [visit]
    split
    · exact hfields.mono (fun _ _ h => ⟨hrecord h.1, h.2⟩) fun _ h => h
    · exact .pure ⟨.stop _ base, ht⟩
  | @array a own _ ih =>
    intro base t hle ht
    have hslots : ∀ block t, block + a.size ≤ limit → t.Inside rootSize s.file.size →
        Visiting R s (if a.element.hasChain then
            visitSlots a (visit .wraps rootSize a.element) block a.capacity 0 t else pure t)
          (fun t' log => RowVisits rootSize s.file.size (a.places block) log ∧
            t'.Inside rootSize s.file.size) fun _ => False := by
      intro block t hle ht
      split
      · have := visiting_visitSlots hs own hle (fun offset t => ih offset t) (Nat.zero_add _) ht
        rwa [List.drop_zero] at this
      · exact .pure ⟨.stop _, ht⟩
    obtain ⟨element, capacity, extent, size, capacity_pos⟩ := a
    unfold visit
    cases extent with
    | fixed => exact (hslots base t hle ht).mono (fun _ _ h => ⟨.of_row h.1, h.2⟩) fun _ h => h
    | chained => exact visiting_visitChain hs own rfl hslots hle ht

/-- An audit gives a report, and counts no more blocks than there are bytes behind the root record. -/
theorem visiting_run {schema : Schema} (hs : s.Steady limit) (hw : schema.rootLayout.WellFormed)
    (hle : schema.size ≤ limit) :
    Visiting R s (run .wraps schema)
      (fun report log => schema.rootLayout.Visits schema.size s.file.size 0 log ∧
        report.blocks ≤ s.file.size - schema.size) fun _ => False := by
  have hroot : 0 + schema.rootLayout.size ≤ limit := (Nat.zero_add _).trans_le hle
  rw [run]
  refine .bind (visiting_visit hs hw 0 _ hroot (.empty ..)) fun t log h => ?_
  obtain ⟨hlog, ht⟩ := h
  have hsize : Visiting R s Session.size (fun _ more => more = []) (· = []) :=
    (Visiting.size hs).mono (fun _ _ h => h.1) fun _ h => h
  refine .bind hsize.attempt fun found more h => ?_
  rcases found with e | size
  · obtain rfl : more = [] := h
    exact .pure ⟨by simpa using hlog, ht.blocks_le⟩
  · obtain rfl : more = [] := h
    exact .pure ⟨by simpa using hlog, ht.blocks_le⟩

end Audit

end RecordFile
