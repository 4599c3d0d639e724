import RecordFile.Proofs.Device.Recorder
import RecordFile.Proofs.Store.Accounting
import RecordFile.Proofs.Store.Refinement

/-!
# Auditing and reading agree

An audit and a read of the root look at the same links, whatever the file holds, though an audit passes
over what cannot hold a link and stops at a block that it has seen before. An audit finds nothing wrong
if and only if the root can be read and no block is read twice; and if the root can be read, all that
an audit finds is blocks that are linked more than once (`Store.audit_isClean_iff_get`).

Both are told by the cells of the file: their links may be followed, and lead to different blocks
(`Report.Describes`, `Store.wp_get_root`). That is what an audit says whose sums wrap around; one that
breaks off instead says the same where no sum is past the words.
-/

namespace RecordFile

open Session

/-- Nothing was written between the two, and was read at the offsets of the trail. -/
structure Recorded (trail : List Nat) (s s' : Session Recorder) : Prop where
  same : Same s s'
  reads_eq : s'.device.reads = s.device.reads ++ trail

instance : Trail Recorded where
  same h := h.same
  nil s := ⟨.refl s, (List.append_nil _).symm⟩
  append h h' := ⟨h.same.trans h'.same, by rw [h'.reads_eq, h.reads_eq, List.append_assoc]⟩
  read s offset length := by
    have hreads : WP (Session.read offset length) s
        (fun _ s' => s'.device.reads = s.device.reads ++ [offset]) fun _ _ => True := by
      rw [Session.read, WP.bind_iff, wp_call_iff]
      exact (s.device.wp_read offset length).mono (fun _ _ h => h.2.1) fun _ _ _ => trivial
    exact ((wp_read s offset length).and hreads).mono (fun _ _ h => ⟨h.1.1, h.2⟩)
      fun _ _ _ => trivial
  size s := by
    have hreads : WP Session.size s (fun _ s' => s'.device.reads = s.device.reads) fun _ _ => True := by
      rw [Session.size, wp_call_iff]
      exact s.device.wp_size.mono (fun _ _ h => congrArg Recorder.reads h.2) fun _ _ _ => trivial
    exact ((wp_size s).and hreads).mono (fun _ _ h => ⟨h.1.1, h.2.trans (List.append_nil _).symm⟩)
      fun _ _ _ => trivial

namespace Store

variable {δ : Type} [Device δ] [LawfulDevice δ]

/-- The store on its file alone, where it is recorded at which offsets the file is read. -/
def recorded (s : Store δ) : Store Recorder :=
  ⟨s.schema, ⟨⟨s.session.file, []⟩, s.session.counters⟩⟩

/-- Whatever the file holds, as long as the root record fits into it and the device does not fail: an
audit finds nothing wrong if and only if the root can be read and, after the root record at offset
zero, the blocks that links lead to are read at different offsets. If the root can be read, all that an
audit finds is blocks that are linked more than once. Where sums do not wrap around, the audit gives the
same report, unless the blocks overlap so much that no word can count their bytes: then it may break
off. -/
theorem audit_isClean_iff_get {s : Store δ} (hschema : s.schema.Compiled)
    (hle : s.schema.size ≤ s.session.file.size) (hinf : LawfulDevice.infallible δ)
    (hfit : s.session.Fits) :
    ∃ report s', audit s = .ok report s' ∧
      (report.isClean = true ↔ ∃ v s'' t followed, get (.dotted "") s = .ok v s'' ∧
        get (.dotted "") s.recorded = .ok v t ∧ t.session.device.reads = 0 :: followed ∧
        followed.Nodup) ∧
      (∀ v s'', get (.dotted "") s = .ok v s'' →
        ∀ finding ∈ report.findings, ∃ block, finding.fault = .sharedBlock block) ∧
      (auditWith .breaksOff s = .ok report s' ∨
        (∃ s'', auditWith .breaksOff s = .error .abort s'') ∧
          wordLimit ≤ s.schema.size + linkedBytes (s.schema.part.cells s.session.file)) := by
  have hw := hschema.wellFormed
  obtain ⟨report, s', haudit, hreport⟩ := audit_describes hw hinf hfit hle
  have hget := wp_get_root (R := fun _ => Same) hw hinf hfit hle
  have hget' : WP (get (.dotted "")) s.recorded _ _ :=
    wp_get_root (R := Recorded) (s := s.recorded) hw trivial hfit hle
  refine ⟨report, s', haudit, ?_, fun v s'' hok => hreport.shared (hget.ok hok).2.2, ?_⟩
  · rw [hreport.clean_iff]
    constructor
    · rintro ⟨hfits, hnodup⟩
      obtain ⟨v, s'', hok, -, rfl, -⟩ := hget.exists_ok fun _ _ _ ⟨c, hc, hnot⟩ => hnot (hfits c hc)
      obtain ⟨v', t, hok', hrecorded, rfl, -⟩ := hget'.exists_ok fun _ _ _ ⟨c, hc, hnot⟩ =>
        hnot (hfits c hc)
      exact ⟨_, s'', t, _, hok, hok', hrecorded.reads_eq, hnodup⟩
    · rintro ⟨v, s'', t, followed, hok, hok', hreads, hnodup⟩
      have htrail := List.cons.inj (hreads.symm.trans (hget'.ok hok').1.reads_eq)
      exact ⟨(hget.ok hok).2.2, htrail.2 ▸ hnodup⟩
  · rcases auditWith_breaksOff Same s with heq | ⟨t, habort, -⟩
    · exact .inl (heq.trans haudit)
    · have hlimit := ((wp_auditWith hw hinf hfit hle .breaksOff).error habort).2.2
      exact .inr ⟨⟨_, habort⟩, hlimit⟩

/-- A store of `Schema.log` with one block appended. -/
def chainedLog : Store File :=
  ⟨.log, ⟨⟨⟨#[1, 2, 3, 11, 0, 0, 0, 0, 0, 0, 0, 4, 5, 0, 0, 0, 0, 0, 0, 0, 0]⟩⟩, {}⟩⟩

theorem audit_isClean_iff_get_log : ∃ report s' v s'' t, audit chainedLog = .ok report s' ∧
    get (.dotted "") chainedLog = .ok v s'' ∧ get (.dotted "") chainedLog.recorded = .ok v t ∧
    t.session.device.reads = [0, 11] ∧ report.isClean = true ∧
    auditWith .breaksOff chainedLog = .ok report s' := by
  have hle : chainedLog.schema.size ≤ chainedLog.session.file.size := by decide +kernel
  have hfit : chainedLog.session.Fits := by decide +kernel
  have hread : WP (get (.dotted "")) chainedLog.recorded
      (fun _ t => t.session.device.reads = [0, 11]) fun _ _ => False := by decide +kernel
  have hread' : WP (get (.dotted "")) chainedLog (fun _ _ => True) fun _ _ => False := by
    decide +kernel
  obtain ⟨v, t, hok, hreads⟩ := hread.exists_ok fun _ _ _ h => h
  obtain ⟨v', s'', hok', -⟩ := hread'.exists_ok fun _ _ _ h => h
  have hvalue := wp_get_root (R := fun _ => Same) (s := chainedLog) Schema.log_compiled.wellFormed
    trivial hfit hle
  have hvalue' := wp_get_root (R := fun _ => Same) (s := chainedLog.recorded)
    Schema.log_compiled.wellFormed trivial hfit hle
  obtain rfl : v' = v := (hvalue.ok hok').2.1.trans (hvalue'.ok hok).2.1.symm
  obtain ⟨report, s', haudit, hiff, -, hbreaks⟩ :=
    audit_isClean_iff_get (s := chainedLog) Schema.log_compiled hle trivial hfit
  have hsame : auditWith .breaksOff chainedLog = .ok report s' :=
    hbreaks.resolve_right fun h => absurd h.2 (by decide +kernel)
  exact ⟨report, s', v', s'', t, haudit, hok', hok, hreads,
    hiff.mpr ⟨v', s'', t, [11], hok', hok, hreads, by decide⟩, hsame⟩

end Store

end RecordFile
