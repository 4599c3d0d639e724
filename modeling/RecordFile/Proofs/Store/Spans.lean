import RecordFile.Proofs.File.Spans
import RecordFile.Proofs.Store.Accounting

/-!
# What an audit says of overlapping blocks

An audit takes a block for a shared one only if two links lead to its start. So if it finds nothing
wrong, the blocks that it has visited start at different offsets behind the root record, but one of
them may start inside another (`Store.audit_overlappingLog`): such links can be read, though no call
of a store sets them.

The sizes of the blocks are added up whether they overlap or not. So the bytes that are counted as
reachable are those that the root record and the blocks cover if storage is `Exclusive`, and only then,
as long as the sum does not wrap around (`Store.audit_spans`).
-/

namespace RecordFile

open Session

theorem starts_linkedSpans {cells : List Cell} :
    (linkedSpans cells).map (·.start) = follows cells := by
  rw [linkedSpans, follows, List.map_map, List.filter_map]
  rfl

namespace Report.Describes

variable {schema : Schema} {f : File} {cells : List Cell} {r : Report}

/-- What is counted as reachable are the sizes of the root record and the blocks. -/
theorem reachable_eq_sum (h : r.Describes schema f cells) (hclean : r.isClean = true) :
    r.reachable =
      ((⟨0, schema.size⟩ :: linkedSpans cells : List Span).map (·.size)).sum % wordLimit := by
  rw [List.map_cons, List.sum_cons, sum_linkedSpans]
  exact h.reachable_eq hclean

/-- That is what they cover, unless some of them have a byte in common or the sum wraps around. -/
theorem reachable_eq_card_iff (h : r.Describes schema f cells) (hclean : r.isClean = true)
    (hlt : ((⟨0, schema.size⟩ :: linkedSpans cells : List Span).map (·.size)).sum < wordLimit) :
    r.reachable = (covered (⟨0, schema.size⟩ :: linkedSpans cells)).card ↔
      Exclusive (⟨0, schema.size⟩ :: linkedSpans cells) := by
  rw [h.reachable_eq_sum hclean, Nat.mod_eq_of_lt hlt, exclusive_iff_card, eq_comm]

/-- If none of them have, the report accounts for all bytes of the file. -/
theorem accounts_of_exclusive (h : r.Describes schema f cells) (hclean : r.isClean = true)
    (hle : schema.size ≤ f.size) (hfit : f.size < wordLimit)
    (hexclusive : Exclusive (⟨0, schema.size⟩ :: linkedSpans cells)) :
    r.reachable = (covered (⟨0, schema.size⟩ :: linkedSpans cells)).card ∧
      r.unreferenced =
        (Finset.range f.size \ covered (⟨0, schema.size⟩ :: linkedSpans cells)).card ∧
      r.reachable + r.unreferenced = f.size := by
  have hinside := linkedSpans_inside (h.clean_iff.mp hclean).1
  have hin : ∀ b ∈ (⟨0, schema.size⟩ :: linkedSpans cells : List Span), b.start + b.size ≤ f.size :=
    List.forall_mem_cons.mpr ⟨(Nat.zero_add _).trans_le hle, fun b hb => (hinside b hb).2⟩
  have hbytes := card_covered_add_card hin
  have hreachable : r.reachable = (covered (⟨0, schema.size⟩ :: linkedSpans cells)).card := by
    rw [h.reachable_eq_sum hclean, ← exclusive_iff_card.mp hexclusive]
    exact Nat.mod_eq_of_lt (by omega)
  have hunreferenced := h.unreferenced_eq
  exact ⟨hreachable, by omega, by omega⟩

end Report.Describes

namespace Store

variable {δ : Type} [Device δ] [LawfulDevice δ]

/-- A store on a file with a chain of two blocks, the second of which starts inside the first. -/
def overlappingLog : Store File :=
  ⟨.log, ⟨⟨⟨#[0, 0, 0, 11, 0, 0, 0, 0, 0, 0, 0, 0, 0, 12, 0, 0, 0, 0, 0, 0, 0, 0]⟩⟩, {}⟩⟩

theorem audit_overlappingLog : overlappingLog.schema.Compiled ∧
    overlappingLog.schema.size ≤ overlappingLog.session.file.size ∧
    ∃ report s', audit overlappingLog = .ok report s' ∧ report.isClean = true ∧
      ¬ Exclusive (⟨0, overlappingLog.schema.size⟩ ::
        linkedSpans (overlappingLog.schema.part.cells overlappingLog.session.file)) ∧
      report.reachable + report.unreferenced ≠ overlappingLog.session.file.size := by
  have hle : overlappingLog.schema.size ≤ overlappingLog.session.file.size := by decide +kernel
  have hsize : overlappingLog.session.file.size = 22 := by decide +kernel
  have hblocks : linkedSpans (overlappingLog.schema.part.cells overlappingLog.session.file) =
      [⟨11, 10⟩, ⟨12, 10⟩] := by decide +kernel
  obtain ⟨report, s', haudit, hreport⟩ := audit_describes (s := overlappingLog)
    Schema.log_compiled.wellFormed trivial (by decide +kernel) hle
  have hnodup : (follows (overlappingLog.schema.part.cells overlappingLog.session.file)).Nodup := by
    rw [← starts_linkedSpans, hblocks]
    decide
  have hclean : report.isClean = true := hreport.clean_iff.mpr ⟨by decide +kernel, hnodup⟩
  have hreachable : report.reachable = 31 := by
    rw [hreport.reachable_eq hclean, ← sum_linkedSpans, hblocks]
    rfl
  rw [hblocks]
  exact ⟨Schema.log_compiled, hle, report, s', haudit, hclean, by decide +kernel, by omega⟩

/-- Whatever the file holds, as long as the root record fits into it and the device does not fail:
if an audit finds nothing wrong, the blocks that it has visited lie behind the root record in the
file and start at different offsets, and what it counts as reachable are their sizes and that of the root
record, added up in a word. Unless the sum wraps around, these are the bytes that the root record and the
blocks cover just if no two of them have a byte in common. Then the other bytes are counted as
unreferenced, and these are all bytes of the file. An audit whose sums do not wrap around gives the same
report or breaks off.

If the file is one that calls of a store have led to, whichever of them the device has failed, then the
audit finds nothing wrong, and no two of them have a byte in common. -/
theorem audit_spans {s : Store δ} (hschema : s.schema.Compiled)
    (hle : s.schema.size ≤ s.session.file.size) (hinf : LawfulDevice.infallible δ)
    (hfit : s.session.Fits) :
    ∃ report s' tally t, audit s = .ok report s' ∧
      (auditWith .breaksOff s = .ok report s' ∨ ∃ s'', auditWith .breaksOff s = .error .abort s'') ∧
      Audit.visit .wraps s.schema.size s.schema.rootLayout 0 { reachable := .ofNat s.schema.size }
        ⟨s.session.device, {}⟩ = .ok tally t ∧
      let blocks := linkedSpans (s.schema.part.cells s.session.file)
      let spans := ⟨0, s.schema.size⟩ :: blocks
      (report.isClean = true →
        (∀ x, x ∈ tally.visited ↔ ∃ b ∈ blocks, b.start = x) ∧ report.blocks = blocks.length ∧
        (∀ b ∈ blocks, s.schema.size ≤ b.start ∧ b.start + b.size ≤ s.session.file.size) ∧
        blocks.Pairwise (fun b b' => b.start ≠ b'.start) ∧
        report.reachable = (spans.map (·.size)).sum % wordLimit ∧
        ((spans.map (·.size)).sum < wordLimit →
          (report.reachable = (covered spans).card ↔ Exclusive spans)) ∧
        (Exclusive spans → report.reachable = (covered spans).card ∧
          report.unreferenced = (Finset.range s.session.file.size \ covered spans).card ∧
          report.reachable + report.unreferenced = s.session.file.size)) ∧
      ∀ mark, ∀ s₀ : Store FlakyFile, Reached s.schema mark s₀ → s₀.session.file = s.session.file →
        report.isClean = true ∧ Exclusive spans := by
  have hw := hschema.wellFormed
  obtain ⟨report, s', haudit, hreport⟩ := audit_describes hw hinf hfit hle
  obtain ⟨tally, t, hvisit, htally⟩ := visit_audits hw hinf hfit hle
  have hbreaks : auditWith .breaksOff s = .ok report s' ∨
      ∃ s'', auditWith .breaksOff s = .error .abort s'' :=
    (auditWith_breaksOff Same s).imp (·.trans haudit) fun ⟨_, habort, _⟩ => ⟨_, habort⟩
  refine ⟨report, s', tally, t, haudit, hbreaks, hvisit, fun hclean => ?_,
    fun mark s₀ hreached hfile => ?_⟩
  · obtain ⟨hfits, hnodup⟩ := hreport.clean_iff.mp hclean
    have hcounts := htally.counts_of_accepts ⟨hfits, hnodup, by simp⟩
    have hblocks := hreport.blocks_eq hclean
    rw [← length_linkedSpans] at hblocks
    rw [← starts_linkedSpans] at hnodup
    refine ⟨fun x => ?_, hblocks, linkedSpans_inside hfits, List.pairwise_map.mp hnodup,
      hreport.reachable_eq_sum hclean, hreport.reachable_eq_card_iff hclean,
      hreport.accounts_of_exclusive hclean hle hfit⟩
    rw [hcounts.visited, ← starts_linkedSpans, List.mem_map]
    simp
  · have hs : InOrder mark s₀ := hreached.inOrder hschema (by rw [Fits, hfile]; exact hfit)
    have hsound := hs.sound
    rw [hfile, hreached.schema_eq] at hsound
    exact ⟨hreport.clean_iff.mpr ⟨hsound.fits, hsound.follows_nodup⟩, hsound.exclusive hw⟩

theorem audit_spans_log : ∃ report s', audit flakyLogWritten.onFile = .ok report s' ∧
    report.isClean = true ∧ Exclusive [⟨0, 11⟩, ⟨21, 10⟩] ∧ report.blocks = 1 ∧
    report.reachable = 21 ∧ report.unreferenced = 10 := by
  have hlog : flakyLogWritten.onFile.schema = .log := reached_flakyLogWritten.schema_eq
  have hsize : flakyLogWritten.onFile.session.file.size = 31 := by decide +kernel
  have hblocks : linkedSpans (flakyLogWritten.onFile.schema.part.cells
      flakyLogWritten.onFile.session.file) = [⟨21, 10⟩] := by decide +kernel
  obtain ⟨report, s', tally, t, haudit, -, -, himp, hreached⟩ :=
    audit_spans (s := flakyLogWritten.onFile) (hlog ▸ Schema.log_compiled) (by decide +kernel) trivial
      (by decide +kernel)
  obtain ⟨hclean, hexclusive⟩ := hreached _ flakyLogWritten (hlog ▸ reached_flakyLogWritten) rfl
  obtain ⟨-, hcount, -, -, -, -, hbytes⟩ := himp hclean
  obtain ⟨hreachable, -, hall⟩ := hbytes hexclusive
  rw [hblocks] at hcount hexclusive hreachable
  have hcovered : report.reachable = 21 := hreachable.trans (by rw [hlog]; decide +kernel)
  rw [hlog] at hexclusive
  exact ⟨report, s', haudit, hclean, hexclusive, hcount, hcovered, by omega⟩

end Store

end RecordFile
