import RecordFile.Proofs.Store.Agreement
import RecordFile.Proofs.Store.AnyFile
import RecordFile.Proofs.Walk.Tallying

/-!
# Reading comes to an end

Whatever a file holds, and however long it is, reading a part, tracing an address and auditing come to
an end on a device that answers every read and fails only those out of bounds. What they read is what a
walk through the root may visit, so it is bounded by the schema and the length of the file, and an
audit counts no more blocks than there are bytes behind the root record (`Store.reading_ends`). An audit
whose sums do not wrap around may break off instead of giving its report, and has read no more by then
(`Store.readsOf_breaksOff`).
-/

namespace RecordFile

open Session

/-! ## Recorded reads -/

theorem File.answersReads : Device.AnswersReads File := fun f offset length => by
  show WP (File.read offset length) f _ _
  unfold WP File.read
  simp only [bind, EStateM.bind, get, getThe, MonadStateOf.get, EStateM.get]
  cases slice? f.bytes offset length with
  | some bytes => trivial
  | none => exact ⟨_, rfl⟩

namespace Recorder

/-- A read that is refused is not remembered. -/
theorem wp_read_refused (d : Recorder) (offset length : Nat) :
    WP (Device.read offset length) d (fun _ _ => True)
      fun e d' => e.IsError ∧ d'.reads = d.reads := by
  show WP (onFile (Device.read offset length) >>= _) d _ _
  rw [WP.bind_iff, wp_onFile_iff]
  exact (File.answersReads d.file offset length).mono (fun _ _ _ => trivial) fun _ _ h => ⟨h, rfl⟩

theorem answersReads : Device.AnswersReads Recorder := fun d offset length =>
  (d.wp_read_refused offset length).mono (fun _ _ h => h) fun _ _ h => h.1

end Recorder

instance : FullTrail Recorded where
  read_refused s offset length := by
    have hreads : WP (Session.read offset length) s (fun _ _ => True)
        fun _ s' => s'.device.reads = s.device.reads := by
      rw [Session.read, WP.bind_iff, wp_call_iff]
      exact (s.device.wp_read_refused offset length).mono (fun _ _ _ => trivial) fun _ _ h => h.2
    exact ((wp_read s offset length).and hreads).mono (fun _ _ _ => trivial)
      fun _ _ h => ⟨h.1.1, h.2.trans (List.append_nil _).symm⟩
  size_refused s := (wp_size s).mono (fun _ _ _ => trivial) fun _ _ h => absurd trivial h.2

/-! ## Reading parts -/

/-- The part at the end of some steps is not visited more than what the steps start from. -/
theorem Layout.readBound_descend {fileSize : Nat} {l l' : Layout} {path : Path} {position : Nat}
    {steps : List UInt64} (h : l.descend path position steps = .ok l') :
    l'.readBound fileSize ≤ l.readBound fileSize := by
  induction steps generalizing l position with
  | nil =>
    obtain rfl := Except.ok.inj h
    exact Nat.le_refl _
  | cons step rest ih =>
    obtain ⟨below, hchild, hbelow⟩ := descend_cons.mp h
    refine (ih hbelow).trans ?_
    cases l with
    | scalar kind => exact absurd hchild child_scalar
    | record r =>
      obtain ⟨f, hf, rfl⟩ := child_record_eq_ok_iff.mp hchild
      rw [readBound_record r 0, r.map_places 0 (·.readBound fileSize)]
      exact List.single_le_sum (fun _ _ => Nat.zero_le _) _
        (List.mem_map_of_mem (f := fun f : FieldLayout => f.layout.readBound fileSize)
          (List.mem_of_getElem? hf))
    | array a =>
      obtain ⟨-, rfl⟩ := child_array_eq_ok_iff.mp hchild
      rw [readBound_array a 0, a.map_places 0 (·.readBound fileSize), List.sum_replicate, smul_eq_mul]
      calc a.element.readBound fileSize
        _ ≤ a.capacity * a.element.readBound fileSize := Nat.le_mul_of_pos_left _ a.capacity_pos
        _ ≤ a.capacity * a.element.readBound fileSize + 2 := Nat.le_add_right ..
        _ ≤ (fileSize + 1) * (a.capacity * a.element.readBound fileSize + 2) :=
          Nat.le_mul_of_pos_left _ (Nat.succ_pos fileSize)

/-- Where reading an address may read: on the way that its path takes through the root, then at the place
that the path leads to, and from there on. -/
def Schema.MayRead (schema : Schema) (fileSize : Nat) (address : Address) (log : List Nat) : Prop :=
  ∃ way rest, log = way ++ rest ∧ schema.rootLayout.Visits schema.size fileSize 0 way ∧
    (rest = [] ∨ ∃ path l offset more, schema.path address = .ok path ∧
      schema.resolve path = .ok l ∧ rest = offset :: more ∧
        l.Visits schema.size fileSize offset more)

theorem Schema.MayRead.length_le {schema : Schema} {fileSize : Nat} {address : Address}
    {log : List Nat} (h : schema.MayRead fileSize address log) :
    log.length ≤ 2 * schema.rootLayout.readBound fileSize + 1 := by
  obtain ⟨way, rest, rfl, hway, hrest⟩ := h
  have hway := hway.length_le
  rw [List.length_append]
  rcases hrest with rfl | ⟨path, l, offset, more, -, hl, rfl, hmore⟩
  · rw [List.length_nil]
    omega
  · have hmore := hmore.length_le.trans (Layout.readBound_descend hl)
    rw [List.length_cons]
    omega

section

variable {δ : Type} [Device δ] [LawfulDevice δ] {R : List Nat → Session δ → Session δ → Prop}
  [FullTrail R] {s : Session δ} {limit : Nat} {schema : Schema}

theorem visiting_tracePath (hs : s.Steady limit) (hw : schema.rootLayout.WellFormed)
    (hle : schema.size ≤ limit) (path : Path) :
    Visiting R s (tracePath schema .forbidden path)
      (fun offset log => schema.rootLayout.Visits schema.size s.file.size 0 log ∧
        ∀ l, schema.resolve path = .ok l → offset + l.size ≤ limit)
      (schema.rootLayout.Visits schema.size s.file.size 0) :=
  visiting_traceFrom hs hw ((Nat.zero_add _).trans_le hle)

/-- Tracing an address. -/
theorem visiting_trace (hs : s.Steady limit) (hw : schema.rootLayout.WellFormed)
    (hle : schema.size ≤ limit) (address : Address) :
    Visiting R s (do
        let path ← ofExcept (schema.path address)
        tracePath schema .forbidden path)
      (fun _ => schema.rootLayout.Visits schema.size s.file.size 0)
      (schema.rootLayout.Visits schema.size s.file.size 0) := by
  cases schema.path address with
  | error e => exact .fail (.stop _ 0)
  | ok path => exact (visiting_tracePath hs hw hle path).mono (fun _ _ h => h.1) fun _ h => h

/-- Reading an address. -/
theorem visiting_get (hs : s.Steady limit) (hw : schema.rootLayout.WellFormed)
    (hle : schema.size ≤ limit) (address : Address) :
    Visiting R s (do
        let path ← ofExcept (schema.path address)
        let layout ← ofExcept (schema.resolve path)
        let offset ← tracePath schema .forbidden path
        readValue schema.size layout offset)
      (fun _ => schema.MayRead s.file.size address) (schema.MayRead s.file.size address) := by
  have hnothing : schema.MayRead s.file.size address [] := ⟨[], [], rfl, .stop _ 0, .inl rfl⟩
  cases hpath : schema.path address with
  | error e => exact .fail hnothing
  | ok path =>
  cases hl : schema.resolve path with
  | error e =>
    rw [ofExcept_ok_bind, hl]
    exact .fail hnothing
  | ok l =>
    rw [ofExcept_ok_bind, hl, ofExcept_ok_bind]
    refine .bind ((visiting_tracePath hs hw hle path).mono (fun _ _ h => h) fun log h =>
      ⟨log, [], (List.append_nil _).symm, h, .inl rfl⟩) fun offset way h => ?_
    obtain ⟨hway, hoffset⟩ := h
    have hread {more : List Nat} (h : l.Visits schema.size s.file.size offset more) :
        schema.MayRead s.file.size address (way ++ ([offset] ++ more)) :=
      ⟨way, offset :: more, rfl, hway, .inr ⟨path, l, offset, more, hpath, hl, rfl, h⟩⟩
    refine .bind ((Visiting.read hs offset l.size).mono (fun _ _ h => h) fun log h => ?_)
      fun bytes log h => ?_
    · exact ⟨way, [], by rw [h], hway, .inl rfl⟩
    · obtain ⟨rfl, hsize⟩ := h
      exact (visiting_decode hs (hw.of_descend hl) offset bytes hsize (hoffset l hl)).mono
        (fun _ _ => hread) fun _ => hread

end

namespace Store

variable {δ : Type} [Device δ] [LawfulDevice δ] {s : Store δ}

/-- At which offsets an action reads the file of a store. -/
def readsOf {α : Type} (action : Action (Store Recorder) α) (s : Store δ) : List Nat :=
  (endState action s.recorded).session.device.reads

theorem wp_onSession_of_visiting {α : Type} {action : Schema → Action (Session δ) α}
    {Q : α → List Nat → Prop} {E : List Nat → Prop}
    (h : Visiting (fun _ => Same) s.session (action s.schema) Q E) :
    WP (onSession action) s (fun _ _ => True) fun e _ => e.IsError :=
  wp_onSession_iff.mpr ((h _ (.refl _)).mono (fun _ _ _ => trivial) fun _ _ h => h.1)

theorem readsOf_onSession {α : Type} {action : Schema → Action (Session Recorder) α}
    {Q : List Nat → Prop}
    (h : Visiting Recorded s.recorded.session (action s.schema) (fun _ => Q) Q) :
    Q (s.readsOf (onSession action)) := by
  have hend : WP (onSession action) s.recorded (fun _ t => Q t.session.device.reads)
      fun _ t => Q t.session.device.reads := by
    rw [wp_onSession_iff]
    refine (h _ (.refl _)).mono (fun _ t ht => ?_) fun _ t ht => ?_
    · obtain ⟨log, hlog, hQ⟩ := ht
      rwa [show t.device.reads = [] ++ log from hlog.reads_eq]
    · obtain ⟨-, log, hlog, hQ⟩ := ht
      rwa [show t.device.reads = [] ++ log from hlog.reads_eq]
  exact hend.endState

/-! ## Any file -/

section

variable (hschema : s.schema.Compiled) (hinf : LawfulDevice.infallible δ)
  (hanswers : Device.AnswersReads δ) (hfit : s.session.Fits)

include hschema hinf hanswers hfit

/-- The root record and the file end at offsets that are words. -/
theorem steady : s.session.Steady (max s.schema.size s.session.file.size) where
  infallible := hinf
  answers := hanswers
  size_le := le_max_right ..
  limit_lt := max_lt hschema.size_lt hfit

omit hinf hanswers in
theorem steady_recorded : s.recorded.session.Steady (max s.schema.size s.session.file.size) :=
  steady (s := s.recorded) hschema trivial Recorder.answersReads hfit

/-- Reading an address ends, and reads where it may. -/
theorem get_ends (address : Address) :
    WP (get address) s (fun _ _ => True) (fun e _ => e.IsError) ∧
      s.schema.MayRead s.session.file.size address (s.readsOf (get address)) := by
  have hw := hschema.wellFormed
  constructor
  · exact wp_onSession_of_visiting
      (visiting_get (steady hschema hinf hanswers hfit) hw (le_max_left ..) address)
  · exact readsOf_onSession
      (visiting_get (steady_recorded hschema hfit) hw (le_max_left ..) address)

/-- Tracing an address ends, and visits the root. -/
theorem trace_ends (address : Address) :
    WP (trace .forbidden address) s (fun _ _ => True) (fun e _ => e.IsError) ∧
      s.schema.rootLayout.Visits s.schema.size s.session.file.size 0
        (s.readsOf (trace .forbidden address)) := by
  have hw := hschema.wellFormed
  constructor
  · exact wp_onSession_of_visiting
      (visiting_trace (steady hschema hinf hanswers hfit) hw (le_max_left ..) address)
  · exact readsOf_onSession
      (visiting_trace (steady_recorded hschema hfit) hw (le_max_left ..) address)

/-- An audit ends with a report, and visits the root. -/
theorem audit_ends :
    (∃ report s', audit s = .ok report s' ∧ report.blocks ≤ s.session.file.size - s.schema.size) ∧
      s.schema.rootLayout.Visits s.schema.size s.session.file.size 0 (s.readsOf audit) := by
  have hw := hschema.wellFormed
  constructor
  · have hrun := Audit.visiting_run (R := fun _ => Same)
      ((steady hschema hinf hanswers hfit).recount {}) hw (le_max_left ..) _ (.refl _)
    obtain ⟨report, t, hok, _, -, -, hblocks⟩ := hrun.exists_ok fun _ _ _ h => h.2.choose_spec.2
    exact ⟨report, _, by rw [audit, auditWith_eq, hok], hblocks⟩
  · have hw : s.recorded.schema.rootLayout.WellFormed := hw
    have hrun := Audit.visiting_run (R := Recorded)
      ((steady_recorded hschema hfit).recount {}) hw (le_max_left ..) _ (.refl _)
    obtain ⟨report, t, hok, log, hlog, hvisits, -⟩ := hrun.exists_ok fun _ _ _ h => h.2.choose_spec.2
    have hreads : s.readsOf audit = log := by
      rw [readsOf, audit, device_endState_auditWith, endState, hok]
      exact hlog.reads_eq
    rwa [hreads]

end

/-- An audit that breaks off where a sum is not a word reads no more than one that lets sums wrap around. -/
theorem readsOf_breaksOff (s : Store δ) : s.readsOf (auditWith .breaksOff) <+: s.readsOf audit := by
  have := FullTrail.readStable (R := Recorded)
  rcases auditWith_breaksOff (fun t t' => ∃ log, Recorded log t t') s.recorded with
    heq | ⟨t, habort, log, hlog⟩
  · rw [readsOf, endState, heq]
    exact List.prefix_refl _
  · rw [readsOf, readsOf, audit, device_endState_auditWith .wraps, hlog.reads_eq, endState, habort]
    exact List.prefix_append _ _

/-- Whatever the file holds, on a device that answers every read and fails only those out of bounds:
reading and tracing an address end with a result or an error, and an audit ends with a report, which
counts no more blocks than the file has bytes behind the root record. They read what walks may visit:
each walk along a chain goes on to blocks that lie behind those before and inside the file, and other
walks start only from parts of a block or record, so that there is a bound on what they read. An audit
whose sums do not wrap around ends likewise, or it breaks off, and reads no more until then. -/
theorem reading_ends (hschema : s.schema.Compiled) (hinf : LawfulDevice.infallible δ)
    (hanswers : Device.AnswersReads δ) (hfit : s.session.Fits) (address : Address) :
    (WP (get address) s (fun _ _ => True) (fun e _ => e.IsError) ∧
      s.schema.MayRead s.session.file.size address (s.readsOf (get address)) ∧
      (s.readsOf (get address)).length ≤
        2 * s.schema.rootLayout.readBound s.session.file.size + 1) ∧
    (WP (trace .forbidden address) s (fun _ _ => True) (fun e _ => e.IsError) ∧
      s.schema.rootLayout.Visits s.schema.size s.session.file.size 0
        (s.readsOf (trace .forbidden address)) ∧
      (s.readsOf (trace .forbidden address)).length ≤
        s.schema.rootLayout.readBound s.session.file.size) ∧
    (∃ report s', audit s = .ok report s' ∧ report.blocks ≤ s.session.file.size - s.schema.size) ∧
      s.schema.rootLayout.Visits s.schema.size s.session.file.size 0 (s.readsOf audit) ∧
      (s.readsOf audit).length ≤ s.schema.rootLayout.readBound s.session.file.size ∧
    (auditWith .breaksOff s = audit s ∨ ∃ s', auditWith .breaksOff s = .error .abort s') ∧
      s.readsOf (auditWith .breaksOff) <+: s.readsOf audit := by
  obtain ⟨hget, hgetReads⟩ := get_ends hschema hinf hanswers hfit address
  obtain ⟨htrace, htraceReads⟩ := trace_ends hschema hinf hanswers hfit address
  obtain ⟨haudit, hauditReads⟩ := audit_ends hschema hinf hanswers hfit
  exact ⟨⟨hget, hgetReads, hgetReads.length_le⟩, ⟨htrace, htraceReads, htraceReads.length_le⟩,
    haudit, hauditReads, hauditReads.length_le,
    (auditWith_breaksOff Same s).imp_right fun ⟨_, habort, _⟩ => ⟨_, habort⟩, readsOf_breaksOff s⟩

theorem reading_ends_log :
    WP (get (.path ⟨[1, 5]⟩)) loopedLog (fun _ _ => True) (fun e _ => e.IsError) ∧
    (∃ report s', audit loopedLog = .ok report s' ∧ report.blocks ≤ 11) ∧
    (loopedLog.readsOf audit).length ≤ 46 := by
  obtain ⟨⟨hget, -⟩, -, ⟨report, s', hok, hblocks⟩, -, hreads, -⟩ :=
    reading_ends (s := loopedLog) Schema.log_compiled trivial File.answersReads (by decide +kernel)
      (.path ⟨[1, 5]⟩)
  exact ⟨hget, ⟨report, s', hok, hblocks.trans (by decide +kernel)⟩,
    hreads.trans (by decide +kernel)⟩

end Store

end RecordFile
