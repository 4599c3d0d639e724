import RecordFile.Proofs.Store.Reached
import RecordFile.Proofs.Walk.Auditing
import RecordFile.Proofs.Walk.Truncation

/-!
# Accounting for every byte

An audit of a store that is in order finds nothing wrong and counts just the blocks that its chains
link (`Store.audit_of_inOrder`). Since every store is in order that calls lead to, whichever of the
device's calls failed, its audit accounts for all blocks that were appended and for all bytes of the
file (`Store.audit_of_reached`): what is not reachable was lost by extensions that failed.
-/

namespace RecordFile

open Session

namespace Store

variable {δ : Type} [Device δ] [LawfulDevice δ] {schema : Schema} {mark : Nat}

omit [LawfulDevice δ] in
/-- Audits count apart what they read. -/
theorem auditWith_eq (overflow : Overflow) (s : Store δ) : auditWith overflow s =
    match Audit.run overflow s.schema (⟨s.session.device, {}⟩ : Session δ) with
    | .ok report t => .ok report ⟨s.schema, ⟨t.device, s.session.counters⟩⟩
    | .error e t => .error e ⟨s.schema, ⟨t.device, s.session.counters⟩⟩ := by
  obtain ⟨schema, device, counters⟩ := s
  simp only [auditWith, onSession]
  cases Audit.run overflow schema (⟨device, {}⟩ : Session δ) <;> rfl

omit [LawfulDevice δ] in
theorem device_endState_auditWith (overflow : Overflow) (s : Store δ) :
    (endState (auditWith overflow) s).session.device =
      (endState (Audit.run overflow s.schema) ⟨s.session.device, {}⟩).device := by
  rw [endState, endState, auditWith_eq]
  cases Audit.run overflow s.schema (⟨s.session.device, {}⟩ : Session δ) <;> rfl

omit [LawfulDevice δ] in
/-- A program that breaks off where a sum is not a word gives the same report, or it breaks off on the way
to where the other one ends. -/
theorem auditWith_breaksOff (R : Session δ → Session δ → Prop) [ReadStable R] (s : Store δ) :
    auditWith .breaksOff s = audit s ∨
      ∃ t : Session δ,
        auditWith .breaksOff s = .error .abort ⟨s.schema, ⟨t.device, s.session.counters⟩⟩ ∧
        R t (endState (Audit.run .wraps s.schema) ⟨s.session.device, {}⟩) := by
  rw [audit, auditWith_eq, auditWith_eq]
  rcases Audit.truncates_run (R := R) s.schema ⟨s.session.device, {}⟩ with heq | ⟨t, habort, ht⟩
  · rw [heq]
    exact .inl rfl
  · rw [habort]
    exact .inr ⟨t, rfl, ht⟩

section

variable {s : Store δ} (hw : s.schema.rootLayout.WellFormed) (hinf : LawfulDevice.infallible δ)
  (hfit : s.session.Fits) (hle : s.schema.size ≤ s.session.file.size)

include hw hinf hfit hle

/-- On a device that does not fail, an audit gives a report of the root record and the blocks behind
it, whatever the file holds, or it breaks off because the blocks have too many bytes. -/
theorem wp_auditWith (overflow : Overflow) : WP (auditWith overflow) s
    (fun report _ => report.Describes s.schema s.session.file (s.schema.part.cells s.session.file))
    fun e _ => e = .abort ∧ overflow = .breaksOff ∧
      wordLimit ≤ s.schema.size + linkedBytes (s.schema.part.cells s.session.file) := by
  have hrun := Audit.reads_run (s := (⟨s.session.device, {}⟩ : Session δ)) hinf hfit hw hle overflow
    _ (.refl _)
  unfold WP at hrun ⊢
  rw [auditWith_eq]
  cases hend : Audit.run overflow s.schema (⟨s.session.device, {}⟩ : Session δ) with
  | ok report t =>
    rw [hend] at hrun
    exact hrun.2
  | error e t =>
    rw [hend] at hrun
    have hexceeds := hrun.2 hinf
    refine ⟨hexceeds.eq_abort, hexceeds.overflow_eq, hexceeds.limit_le.trans ?_⟩
    exact Nat.add_le_add_right (Nat.mod_le ..) _

/-- Where sums wrap around, there is a report in any case. -/
theorem audit_describes : ∃ report s', audit s = .ok report s' ∧
    report.Describes s.schema s.session.file (s.schema.part.cells s.session.file) :=
  (wp_auditWith hw hinf hfit hle .wraps).exists_ok fun _ _ _ h => nomatch h.2.1

/-- A walk that audits the root record and the blocks behind it comes to an end. -/
theorem visit_audits : ∃ tally t,
    Audit.visit .wraps s.schema.size s.schema.rootLayout 0 { reachable := .ofNat s.schema.size }
      (⟨s.session.device, {}⟩ : Session δ) = .ok tally t ∧
    Tally.Audits s.schema.size s.session.file { reachable := .ofNat s.schema.size } tally
      (s.schema.part.cells s.session.file) := by
  have hvisit : Audit.Covers .wraps s.schema.size (⟨s.session.device, {}⟩ : Session δ) _ _ :=
    Audit.covers_visit (s := ⟨s.session.device, {}⟩) hinf hfit hw
      (Nat.le_of_eq (Nat.zero_add _) |>.trans hle)
  obtain ⟨tally, t, hok, -, htally⟩ := (hvisit _ _ (.refl _)).exists_ok fun e s' _ h =>
    nomatch (h.2 hinf).overflow_eq
  exact ⟨tally, t, hok, htally⟩

end

/-- Auditing a store that is in order, on a device that does not fail. -/
theorem audit_of_inOrder {s : Store δ} (hs : InOrder mark s) (hinf : LawfulDevice.infallible δ)
    (hfit : s.session.Fits) :
    ∃ report s', audit s = .ok report s' ∧ report.isClean = true ∧
      report.blocks = linkedBlocks (s.schema.part.cells s.session.file) ∧
      report.reachable =
        (s.schema.size + linkedBytes (s.schema.part.cells s.session.file)) % wordLimit ∧
      report.unreferenced = s.session.file.size - report.reachable := by
  obtain ⟨report, s', hok, hreport⟩ := audit_describes hs.wellFormed hinf hfit hs.sound.root_le
  have hclean := hreport.clean_iff.mpr ⟨hs.sound.fits, hs.sound.follows_nodup⟩
  exact ⟨report, s', hok, hclean, hreport.blocks_eq hclean, hreport.reachable_eq hclean,
    hreport.unreferenced_eq⟩

/-- Whichever calls of the device have failed, an audit of the file finds nothing wrong. It counts
the blocks that have been appended since the file was last made anew, the reachable bytes and the
others are all bytes of the file, and the others are those that failed extensions have lost; without
failures there are none. -/
theorem audit_of_reached (hschema : schema.Compiled) {s : Store FlakyFile}
    (h : Reached schema mark s) (hfit : s.session.Fits) :
    ∃ report s', audit s.onFile = .ok report s' ∧ report.isClean = true ∧
      mark + report.blocks = s.session.counters.chainExtensions ∧
      report.reachable + report.unreferenced = s.session.file.size ∧
      report.unreferenced = (Ledger.of s.session.device.history).lost ∧
      ((∀ e ∈ s.session.device.history, e.done = true) → report.unreferenced = 0) := by
  have hs := h.inOrder hschema hfit
  obtain ⟨report, s', hok, hclean, hblocks, hreachable, hunreferenced⟩ :=
    audit_of_inOrder hs.onFile trivial hfit
  have hcount := hs.accounts.blocks_eq
  obtain ⟨-, hsize⟩ := hs.accounts.size_eq _ rfl
  replace hsize : s.session.file.size = s.schema.size +
      (Ledger.of s.session.device.history).lost +
        linkedBytes (s.schema.part.cells s.session.file) := hsize
  change report.blocks = linkedBlocks (s.schema.part.cells s.session.file) at hblocks
  -- The blocks have no more bytes than the file, so the sum has not wrapped around.
  have hbytes : s.schema.size + linkedBytes (s.schema.part.cells s.session.file) ≤
      s.session.file.size := by omega
  replace hreachable : report.reachable =
      s.schema.size + linkedBytes (s.schema.part.cells s.session.file) :=
    hreachable.trans (Nat.mod_eq_of_lt (Nat.lt_of_le_of_lt hbytes hfit))
  change report.unreferenced = s.session.file.size - report.reachable at hunreferenced
  have hlost : report.unreferenced = (Ledger.of s.session.device.history).lost := by omega
  refine ⟨report, s', hok, hclean, by omega, by omega, hlost, fun hdone => ?_⟩
  rw [hlost]
  exact Ledger.lost_of_done hdone

theorem audit_of_reached_log : ∃ report s', audit flakyLogWritten.onFile = .ok report s' ∧
    report.isClean = true ∧ report.blocks = 1 ∧ report.unreferenced = 10 := by
  have hcount : flakyLogWritten.session.counters.chainExtensions = 1 := by decide +kernel
  have hlost : (Ledger.of flakyLogWritten.session.device.history).lost = 10 := by decide +kernel
  obtain ⟨report, s', hok, hclean, hblocks, -, hunreferenced, -⟩ :=
    audit_of_reached Schema.log_compiled reached_flakyLogWritten (by decide +kernel)
  exact ⟨report, s', hok, hclean, by omega, hunreferenced.trans hlost⟩

end Store

end RecordFile
