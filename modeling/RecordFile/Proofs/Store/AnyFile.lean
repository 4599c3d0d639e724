import RecordFile.Proofs.Layout.Catalog
import RecordFile.Proofs.Store.Request
import RecordFile.Proofs.Walk.Bounds

/-!
# Stores on any file

Nothing is known of the file here but that it is as long as the root record: links may lead anywhere
and blocks may overlap. Still no call on the store breaks off or reaches out of bounds, and on a
device that does not fail, only the file can be to blame for what goes wrong once the path and the
value have been accepted (`Store.inside_of_size_le`).
-/

namespace RecordFile

open Session

variable {δ : Type} [Device δ] [LawfulDevice δ]

section

variable {schema : Schema} {s : Session δ}

/-- Reading what a path leads to. -/
theorem reads_readAt (hw : schema.rootLayout.WellFormed) (hfit : s.Fits)
    (hle : schema.size ≤ s.file.size) {path : Path} {layout : Layout}
    (hlayout : schema.resolve path = .ok layout) :
    Reads s (tracePath schema .forbidden path >>= readValue schema.size layout) (fun _ => True)
      fun e => e.IsCorruption ∨ e.IsOutOfRange := by
  refine .bind ((reads_tracePath hw hfit hle path).mono (fun _ h => h) fun e he =>
    he.imp (·.1) fun h => h.2.2 layout hlayout) fun offset hplace => ?_
  obtain ⟨layout', hplace⟩ := hplace
  obtain rfl := Except.ok.inj ((Schema.resolve_of_placeAt hplace).symm.trans hlayout)
  obtain ⟨hw', hle'⟩ := Layout.placeAt_le hw (Nat.le_of_eq (Nat.zero_add _) |>.trans hle) hplace
  exact (reads_readValue hw' hfit hle').mono (fun _ _ => trivial) fun e he => .inl he.1

/-- Writing an image to what a path leads to. -/
theorem within_writeAt (hw : schema.rootLayout.WellFormed) (hle : schema.size ≤ s.file.size)
    {path : Path} {layout : Layout} {image : Image} {v : Value}
    (hlayout : schema.resolve path = .ok layout) (himage : layout.image v = .ok image) :
    Within (writeAt schema path layout image) s (fun _ _ => True) Halt.IsCorruption := by
  have hroot : 0 + schema.rootLayout.size ≤ s.file.size :=
    Nat.le_of_eq (Nat.zero_add _) |>.trans hle
  rw [writeAt]
  refine Within.bind ((within_traceFrom hw hroot).mono (fun _ _ h => h) fun e he =>
    he.2 layout hlayout) fun offset s₁ _ h => ?_
  obtain ⟨layout', hlayout', hw', hle'⟩ := h
  obtain rfl : layout = layout' := Except.ok.inj (hlayout.symm.trans hlayout')
  refine Within.bind ((within_writeImage hw' s₁ offset v image himage hle').mono (fun _ _ h => h)
    fun _ h => h.2) fun _ s₂ _ _ => ?_
  split
  · exact (wp_sync s₂).mono (fun _ _ h => ⟨h.sizeLe, trivial⟩) fun _ _ h hinf => absurd hinf h.2
  · exact .pure trivial

end

namespace Store

variable {s : Store δ}

/-- Tracing gives an offset at which the file has what the path leads to. -/
theorem wp_trace (hw : s.schema.rootLayout.WellFormed) (hle : s.schema.size ≤ s.session.file.size)
    (hinf : LawfulDevice.infallible δ) {growth : Growth} {address : Address}
    (hfit : (endState (trace growth address) s).session.Fits) :
    WP (trace growth address) s
      (fun offset s' => ∃ path layout, s.schema.path address = .ok path ∧
        s.schema.resolve path = .ok layout ∧ offset + layout.size ≤ s'.session.file.size)
      fun e _ => e.IsError ∧ ∀ path layout, s.schema.path address = .ok path →
        s.schema.resolve path = .ok layout →
          e.IsCorruption ∨ growth = .forbidden ∧ e.IsOutOfRange := by
  have hroot : 0 + s.schema.rootLayout.size ≤ s.session.file.size :=
    Nat.le_of_eq (Nat.zero_add _) |>.trans hle
  rw [endState_trace] at hfit
  rw [trace, wp_onSession_iff]
  cases hpath : s.schema.path address with
  | error e => exact ⟨⟨_, rfl⟩, fun _ _ h => by cases h⟩
  | ok path =>
    simp only [hpath, endState_onSession] at hfit
    rw [ofExcept_ok_bind]
    cases growth with
    | forbidden =>
      have hfit₀ : s.session.Fits :=
        Nat.lt_of_le_of_lt (Keeps.holds (R := SizeLe) s.session) hfit
      refine (reads_tracePath hw hfit₀ hle path s.session (.refl _)).mono (fun offset s' h => ?_)
        fun e s' h => ?_
      · obtain ⟨hsame, layout, hplace⟩ := h
        refine ⟨path, layout, rfl, Schema.resolve_of_placeAt hplace, ?_⟩
        rw [hsame.file_eq]
        exact (Layout.placeAt_le hw hroot hplace).2
      · rcases h.2 hinf with hdamaged | ⟨-, herror, hrange⟩
        · exact ⟨hdamaged.1.isError, fun _ _ _ _ => .inl hdamaged.1⟩
        · refine ⟨herror, fun path' layout hpath' hlayout => .inr ⟨rfl, ?_⟩⟩
          obtain rfl := Except.ok.inj hpath'
          exact hrange layout hlayout
    | allowed =>
      refine ((within_traceFrom hw hroot).wp hfit).mono (fun offset s' h => ?_) fun e s' h => ?_
      · obtain ⟨-, layout, hlayout, -, hle'⟩ := h
        exact ⟨path, layout, rfl, hlayout, hle'⟩
      · refine ⟨(h hinf).1, fun path' layout hpath' hlayout => .inl ?_⟩
        obtain rfl := Except.ok.inj hpath'
        exact (h hinf).2 layout hlayout

theorem wp_get (hw : s.schema.rootLayout.WellFormed) (hle : s.schema.size ≤ s.session.file.size)
    (hinf : LawfulDevice.infallible δ) {address : Address} (hfit : s.session.Fits) :
    WP (get address) s (fun _ _ => True)
      fun e _ => e.IsError ∧ ∀ path layout, s.schema.path address = .ok path →
        s.schema.resolve path = .ok layout → e.IsCorruption ∨ e.IsOutOfRange := by
  rw [get, wp_onSession_iff]
  cases hpath : s.schema.path address with
  | error e => exact ⟨⟨_, rfl⟩, fun _ _ h => by cases h⟩
  | ok path =>
  rw [ofExcept_ok_bind]
  cases hlayout : s.schema.resolve path with
  | error e =>
    refine ⟨⟨_, rfl⟩, fun path' layout hpath' hlayout' => ?_⟩
    obtain rfl := Except.ok.inj hpath'
    rw [hlayout] at hlayout'
    cases hlayout'
  | ok layout =>
    refine (reads_readAt hw hfit hle hlayout s.session (.refl _)).mono (fun _ _ _ => trivial)
      fun e _ h => ⟨?_, fun _ _ _ _ => h.2 hinf⟩
    exact (h.2 hinf).elim Halt.IsCorruption.isError Halt.IsOutOfRange.isError

theorem wp_set_any (hw : s.schema.rootLayout.WellFormed)
    (hle : s.schema.size ≤ s.session.file.size) (hinf : LawfulDevice.infallible δ)
    {address : Address} {v : Value} (hfit : (endState (set address v) s).session.Fits) :
    WP (set address v) s (fun _ _ => True)
      fun e _ => e.IsError ∧ ∀ plan, s.schema.plan address v = .ok plan → e.IsCorruption := by
  rw [endState_set] at hfit
  unfold WP
  rw [set_eq]
  cases hplan : s.schema.plan address v with
  | error e => exact ⟨⟨_, rfl⟩, fun _ h => by cases h⟩
  | ok plan =>
    obtain ⟨path, layout, image⟩ := plan
    obtain ⟨-, hlayout, himage⟩ := Schema.plan_eq_ok hplan
    simp only [hplan, endState_onSession] at hfit
    refine wp_onSession_iff.mpr (((within_writeAt hw hle hlayout himage).wp hfit).mono
      (fun _ _ _ => trivial) fun e _ h => ⟨(h hinf).isError, fun _ _ => h hinf⟩)

/-- Whatever the file holds, as long as the root record fits into it: tracing gives an offset at which
the file has what the path leads to; no call breaks off; and where the device does not fail, once
the path resolves and the write is planned, only a link of the file or a missing element can make a
call fail. -/
theorem inside_of_size_le (hschema : s.schema.Compiled) (hle : s.schema.size ≤ s.session.file.size)
    (hinf : LawfulDevice.infallible δ) (address : Address) (v : Value) :
    (∀ growth, (endState (trace growth address) s).session.Fits →
      WP (trace growth address) s
        (fun offset s' => ∃ path layout, s.schema.path address = .ok path ∧
          s.schema.resolve path = .ok layout ∧ offset + layout.size ≤ s'.session.file.size)
        fun e _ => e.IsError ∧ ∀ path layout, s.schema.path address = .ok path →
          s.schema.resolve path = .ok layout →
            e.IsCorruption ∨ growth = .forbidden ∧ e.IsOutOfRange) ∧
    (s.session.Fits → WP (get address) s (fun _ _ => True)
      fun e _ => e.IsError ∧ ∀ path layout, s.schema.path address = .ok path →
        s.schema.resolve path = .ok layout → e.IsCorruption ∨ e.IsOutOfRange) ∧
    ((endState (set address v) s).session.Fits → WP (set address v) s (fun _ _ => True)
      fun e _ => e.IsError ∧ ∀ plan, s.schema.plan address v = .ok plan → e.IsCorruption) := by
  have hw := hschema.wellFormed
  exact ⟨fun _ => wp_trace hw hle hinf, wp_get hw hle hinf, wp_set_any hw hle hinf⟩

/-- A store on a file with a chain whose second block links the first one. -/
def loopedLog : Store File :=
  ⟨.log, ⟨⟨⟨#[0, 0, 0, 12, 0, 0, 0, 0, 0, 0, 0, 0, 0, 0, 1, 0, 0, 0, 0, 0, 0, 0]⟩⟩, {}⟩⟩

theorem inside_of_size_le_log :
    WP (trace .allowed (.path ⟨[1, 5]⟩)) loopedLog
      (fun offset s' => offset + 1 ≤ s'.session.file.size) fun e _ => e.IsCorruption := by
  have hresolve : Schema.log.resolve ⟨[1, 5]⟩ = .ok (.scalar .uint8) := rfl
  refine ((inside_of_size_le (s := loopedLog) Schema.log_compiled (by decide +kernel) trivial
    (.path ⟨[1, 5]⟩) (.uint 7)).1 .allowed (by decide +kernel)).mono (fun offset s' h => ?_)
      fun e _ h => ?_
  · obtain ⟨path, layout, hpath, hlayout, hle⟩ := h
    obtain rfl : path = ⟨[1, 5]⟩ := (Except.ok.inj hpath).symm
    obtain rfl := Except.ok.inj (hlayout.symm.trans hresolve)
    exact hle
  · exact (h.2 ⟨[1, 5]⟩ (.scalar .uint8) rfl hresolve).resolve_right nofun

end Store

end RecordFile
