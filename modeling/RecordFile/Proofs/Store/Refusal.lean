import RecordFile.Proofs.Store.AnyFile
import RecordFile.Proofs.Walk.Blank

/-!
# Writes that are refused

A write may make chains longer on the way to its place before it writes anything there, and the
file may hold anything. Still a write that fails because the path or the value does not fit, or that
fails where no chained array is written, leaves no trace (`Store.set_refused`). Everything that can
be wrong with the path and the value is found before the device is touched. A link can only be
broken as long as nothing was appended: from the first new block on, the walk goes over blank places
(`wp_traceFrom_unwritten`). And writing to a place inside the file fails only at a link.
-/

namespace RecordFile

open Session

variable {δ : Type} [Device δ] [LawfulDevice δ] {rootSize : Nat} {s : Session δ}

/-- The file is as it was, and no extension and no written byte was counted. -/
structure Session.Unwritten (s s' : Session δ) : Prop where
  file_eq : s'.file = s.file
  chainExtensions_eq : s'.counters.chainExtensions = s.counters.chainExtensions
  bytesWritten_eq : s'.counters.bytesWritten = s.counters.bytesWritten

namespace Session.Unwritten

variable {s' s'' : Session δ}

theorem refl (s : Session δ) : Unwritten s s := ⟨rfl, rfl, rfl⟩

theorem trans (h : Unwritten s s') (h' : Unwritten s' s'') : Unwritten s s'' :=
  ⟨h'.file_eq.trans h.file_eq, h'.chainExtensions_eq.trans h.chainExtensions_eq,
    h'.bytesWritten_eq.trans h.bytesWritten_eq⟩

theorem fits (h : Unwritten s s') (hfit : s.Fits) : s'.Fits := by
  unfold Fits
  rwa [h.file_eq]

end Session.Unwritten

/-- Reading counts nothing as written. -/
instance : ReadStable (δ := δ) Unwritten where
  refl := .refl
  trans := .trans
  read s offset length := by
    have hsame : Same s (endState (Session.read offset length) s) := ReadStable.read s offset length
    refine ⟨hsame.file_eq, hsame.chainExtensions_eq, ?_⟩
    refine WP.endState (P := fun s' : Session δ =>
      s'.counters.bytesWritten = s.counters.bytesWritten) ?_
    rw [Session.read, WP.bind_iff, wp_call_iff]
    exact (WP.self _ _).mono (fun _ _ _ => rfl) fun _ _ _ => rfl
  size s := by
    have hsame : Same s (endState Session.size s) := ReadStable.size s
    refine ⟨hsame.file_eq, hsame.chainExtensions_eq, ?_⟩
    refine WP.endState (P := fun s' : Session δ =>
      s'.counters.bytesWritten = s.counters.bytesWritten) ?_
    rw [Session.size, wp_call_iff]
    exact (WP.self _ _).mono (fun _ _ _ => rfl) fun _ _ _ => rfl

/-! ## Walks that fail -/

namespace Chain

variable {a : ArrayLayout} {block : Nat}

/-- Where the link of a block is not zero, it is followed or found broken. -/
theorem wp_followOrExtend_of_ne (own : a.WellFormed) (hext : a.extent = .chained) (hfit : s.Fits)
    (hle : block + a.size ≤ s.file.size) (hne : s.file.link a block ≠ 0) :
    WP (followOrExtend rootSize a block) s
      (fun next s' => Unwritten s s' ∧ next + a.size ≤ s'.file.size)
      fun _ s' => Unwritten s s' := by
  have hlink := a.linkOffset_le own hext hle
  have hkeep : Unwritten s (endState (follow rootSize a block) s) := Keeps.holds s
  rw [followOrExtend, WP.bind_iff]
  refine ((wp_follow hext (linkOffset_lt hfit hlink) hlink).and (WP.of_endState hkeep)).mono
    (fun found s' h => ?_) fun _ _ h => h.2
  obtain ⟨⟨-, hfound, hleads⟩, hunwritten⟩ := h
  have hleads := hleads.resolve_left hne
  rw [File.next?_eq_some_iff.mpr ⟨hext, rfl, hleads⟩] at hfound
  obtain ⟨next, rfl, hnext⟩ := Option.map_eq_some_iff.mp hfound
  refine ⟨hunwritten, ?_⟩
  rw [hunwritten.file_eq, hnext]
  exact hleads.2.2

/-- A walk along a chain that fails has appended nothing. If it has appended something, it ends at a
blank place. -/
theorem wp_locateFrom_unwritten (hinf : LawfulDevice.infallible δ) (own : a.WellFormed)
    (hext : a.extent = .chained) (hfit : s.Fits) (hle : block + a.size ≤ s.file.size)
    (index remaining allocated : Nat) :
    WP (locateFrom rootSize .allowed a index block remaining allocated) s
      (fun offset s' => offset + a.element.size ≤ s'.file.size ∧
        (Unwritten s s' ∨ s'.file.Blank offset a.element.size))
      fun e s' => e = .abort ∨ Unwritten s s' := by
  induction remaining using Nat.strongRecOn generalizing s block allocated with
  | ind remaining ih =>
    have hpos := a.capacity_pos
    by_cases hcap : a.capacity ≤ remaining
    swap
    · have hlt := Nat.lt_of_not_le hcap
      have hslot := a.slot_le hlt
      have hslots := own.slotsSize_le
      rw [locateFrom, dif_neg hcap, a.slotOffset?_eq own hlt (Nat.lt_of_le_of_lt hle hfit)]
      exact ⟨by omega, .inl (.refl s)⟩
    by_cases hzero : s.file.link a block = 0
    · exact (wp_locateFrom_unlinked hinf own hext hle hzero index (.inl hcap) allocated).mono
        (fun _ _ h => ⟨h.inside, .inr h.blank⟩) fun _ _ h => .inl h.eq_abort
    · rw [locateFrom, dif_pos hcap, WP.bind_iff, Chain.next, WP.bind_iff]
      refine (wp_followOrExtend_of_ne own hext hfit hle hzero).mono (fun next s₁ h => ?_)
        fun _ _ h => .inr h
      obtain ⟨hunwritten, hnext⟩ := h
      refine (ih (remaining - a.capacity) (by omega) (hunwritten.fits hfit) hnext _).mono
        (fun offset s' h => ⟨h.1, h.2.imp_left hunwritten.trans⟩) fun _ _ h =>
          h.imp_right hunwritten.trans

/-- The place of an element, for an index that the array accepts. -/
theorem wp_locate_unwritten (hinf : LawfulDevice.infallible δ) (own : a.WellFormed) (hfit : s.Fits)
    (hle : block + a.size ≤ s.file.size) {index : Nat}
    (hindex : ¬ (a.extent = .fixed ∧ a.capacity ≤ index)) :
    WP (locate rootSize .allowed a block index) s
      (fun offset s' => offset + a.element.size ≤ s'.file.size ∧
        (Unwritten s s' ∨ s'.file.Blank offset a.element.size))
      fun e s' => e = .abort ∨ Unwritten s s' := by
  cases hext : a.extent with
  | fixed =>
    have hlt : index < a.capacity := Nat.lt_of_not_le fun h => hindex ⟨hext, h⟩
    have hslot := a.slot_le hlt
    have hslots := own.slotsSize_le
    rw [locate_of_fixed own hext hlt (Nat.lt_of_le_of_lt hle hfit)]
    exact ⟨by omega, .inl (.refl s)⟩
  | chained =>
    rw [locate, hext]
    exact wp_locateFrom_unwritten hinf own hext hfit hle index index a.capacity

end Chain

/-- A walk along a path that leads to a part fails only while nothing was appended. -/
theorem wp_traceFrom_unwritten (hinf : LawfulDevice.infallible δ) {path : Path}
    {position offset : Nat} {l l' : Layout} {steps : List UInt64} (hw : l.WellFormed)
    (hdescend : l.descend path position steps = .ok l') (hfit : s.Fits)
    (hle : offset + l.size ≤ s.file.size) :
    WP (traceFrom rootSize .allowed path position l offset steps) s
      (fun offset' s' => offset' + l'.size ≤ s'.file.size)
      fun e s' => e = .abort ∨ Unwritten s s' := by
  induction steps generalizing s position offset l with
  | nil =>
    obtain rfl := Except.ok.inj hdescend
    rw [traceFrom]
    exact hle
  | cons step rest ih =>
    obtain ⟨below, hchild, hdescend⟩ := Layout.descend_cons.mp hdescend
    cases l with
    | scalar kind => exact absurd hchild Layout.child_scalar
    | record r =>
      obtain ⟨f, hf, rfl⟩ := Layout.child_record_eq_ok_iff.mp hchild
      have hmem := List.mem_of_getElem?
        (@Layout.children_record_of_some rootSize s.file _ _ _ hf offset)
      have hlt := Nat.lt_of_le_of_lt hle hfit
      simp only [traceFrom, hf, hw.of_record.fieldOffset_eq hlt (List.mem_of_getElem? hf),
        orAbort_some_bind]
      exact ih (hw.of_child hchild) hdescend hfit (Layout.children_le hw hle _ hmem)
    | array a =>
      obtain ⟨own, he⟩ := hw.of_array
      obtain ⟨hindex, rfl⟩ := Layout.child_array_eq_ok_iff.mp hchild
      rw [traceFrom, WP.bind_iff]
      refine (Chain.wp_locate_unwritten hinf own hfit hle hindex).mono (fun start s₁ h => ?_)
        fun _ _ h => h
      obtain ⟨hin, hunwritten | hblank⟩ := h
      · exact (ih he hdescend (hunwritten.fits hfit) hin).mono (fun _ _ h => h)
          fun _ _ h => h.imp_right hunwritten.trans
      · exact (wp_traceFrom_blank hinf he hdescend hblank hin).mono (fun _ _ h => h.2)
          fun _ _ h => .inl h.eq_abort

/-! ## Writes that fail -/

/-- A write fails before anything was appended or written, or at a link below the place that it
writes to. -/
theorem wp_writeAt_unwritten (hinf : LawfulDevice.infallible δ) {schema : Schema}
    (hw : schema.rootLayout.WellFormed) (hfit : s.Fits) (hle : schema.size ≤ s.file.size)
    {path : Path} {layout : Layout} {image : Image} {v : Value}
    (hlayout : schema.resolve path = .ok layout) (himage : layout.image v = .ok image) :
    WP (writeAt schema path layout image) s (fun _ _ => True)
      fun e s' => e = .abort ∨ Unwritten s s' ∨ ¬ layout.Chainless ∧ e.IsCorruption := by
  have hroot : 0 + schema.rootLayout.size ≤ s.file.size :=
    Nat.le_of_eq (Nat.zero_add _) |>.trans hle
  rw [writeAt, WP.bind_iff]
  refine (wp_traceFrom_unwritten hinf hw hlayout hfit hroot).mono (fun offset s₁ hin => ?_)
    fun _ _ h => h.imp_right .inl
  rw [WP.bind_iff]
  refine WP.mono (within_writeImage (hw.of_descend hlayout) s₁ offset v image himage hin)
    (fun _ s₂ _ => ?_) fun e s₂ h => ?_
  · split
    · exact (wp_sync s₂).mono (fun _ _ _ => trivial) fun _ _ h => absurd hinf h.2
    · trivial
  · exact (h hinf).symm.imp (·.1) .inr

namespace Store

variable {s : Store δ}

/-- A write that fails has done nothing yet, or it fails at a link below the place that it writes
to. -/
theorem wp_set_unwritten (hschema : s.schema.Compiled) (hfit : s.session.Fits)
    (hle : s.schema.size ≤ s.session.file.size) (hinf : LawfulDevice.infallible δ)
    (address : Address) (v : Value) :
    WP (set address v) s (fun _ _ => True) fun e s' =>
      e = .abort ∨ Unwritten s.session s'.session ∨ e.IsCorruption ∧ ∀ path layout,
        s.schema.path address = .ok path → s.schema.resolve path = .ok layout →
          ¬ layout.Chainless := by
  unfold WP
  rw [set_eq]
  cases hplan : s.schema.plan address v with
  | error e => exact .inr (.inl (.refl s.session))
  | ok plan =>
    obtain ⟨path, layout, image⟩ := plan
    obtain ⟨hpath, hlayout, himage⟩ := Schema.plan_eq_ok hplan
    refine wp_onSession_iff.mpr ((wp_writeAt_unwritten hinf hschema.wellFormed hfit hle hlayout
      himage).mono (fun _ _ h => h) fun e s' h => h.imp_right (Or.imp_right fun h => ⟨h.2, ?_⟩))
    intro path' layout' hpath' hlayout'
    obtain rfl := Except.ok.inj (hpath.symm.trans hpath')
    obtain rfl := Except.ok.inj (hlayout.symm.trans hlayout')
    exact h.1

/-- A write that fails because of the path or the value, or that fails where no chained array is
written, leaves the file and the counts of what was written as they were. -/
theorem set_refused (hschema : s.schema.Compiled) (hfit : s.session.Fits)
    (hle : s.schema.size ≤ s.session.file.size) (hinf : LawfulDevice.infallible δ)
    {address : Address} {v : Value} {e : Error} {s' : Store δ}
    (h : set address v s = .error (.error e) s')
    (he : e.domain = .path ∨ e.domain = .encoding ∨ ∃ path layout,
      s.schema.path address = .ok path ∧ s.schema.resolve path = .ok layout ∧ layout.Chainless) :
    s'.session.file = s.session.file ∧
      s'.session.counters.chainExtensions = s.session.counters.chainExtensions ∧
      s'.session.counters.bytesWritten = s.session.counters.bytesWritten := by
  rcases (wp_set_unwritten hschema hfit hle hinf address v).error h with
    habort | hunwritten | ⟨⟨cause, hcause⟩, hchained⟩
  · cases habort
  · exact ⟨hunwritten.file_eq, hunwritten.chainExtensions_eq, hunwritten.bytesWritten_eq⟩
  · obtain rfl := Halt.error.inj hcause
    rcases he with hdomain | hdomain | ⟨path, layout, hpath, hlayout, hchainless⟩
    · cases hdomain
    · cases hdomain
    · exact absurd hchainless (hchained path layout hpath hlayout)

/-- A write of a number behind a broken link. -/
theorem set_refused_log : ∃ cause s', set (.path ⟨[1, 5]⟩) (.uint 7) loopedLog =
      .error (.error (.corrupted cause)) s' ∧
    s'.session.file = loopedLog.session.file ∧
      s'.session.counters.chainExtensions = loopedLog.session.counters.chainExtensions ∧
      s'.session.counters.bytesWritten = loopedLog.session.counters.bytesWritten := by
  have hbroken : WP (set (.path ⟨[1, 5]⟩) (.uint 7)) loopedLog (fun _ _ => False)
      fun e _ => (e matches .error (.corrupted _)) = true := by decide +kernel
  cases h : set (.path ⟨[1, 5]⟩) (.uint 7) loopedLog with
  | ok _ s' => exact (hbroken.ok h).elim
  | error e s' =>
    have he := hbroken.error h
    split at he
    · exact ⟨_, s', rfl, set_refused Schema.log_compiled (by decide +kernel) (by decide +kernel)
        trivial h (.inr (.inr ⟨⟨[1, 5]⟩, .scalar .uint8, rfl, rfl, .scalar .uint8⟩))⟩
    · cases he

end Store

end RecordFile
