import RecordFile.Proofs.File.Rewrite
import RecordFile.Proofs.Walk.Decoding
import RecordFile.Proofs.Walk.Writing

/-!
# Requests

A `Request` is a call on a store other than `Store.init`. On a lawful device and a file that is in
order, a request is work on the root record and on all blocks behind it (`Request.progress`), whether
it succeeds or not.

`Schema.plan` is what a write does before it touches the device: it refuses the write, or it knows
the path, the type and the image. `Store.set_eq` splits a write there, and `does_writeAt` says what
the rest of it does.
-/

namespace RecordFile

open Session

/-- The root record and the blocks behind it, as a part of the file. -/
def Schema.part (schema : Schema) : Part Value := schema.rootLayout.part schema.size 0

/-- Why a write is refused before the device is touched, or the path, the type and the image of what
is written. -/
def Schema.plan (schema : Schema) (address : Address) (v : Value) :
    Except Error (Path × Layout × Image) := do
  let path ← schema.path address
  let layout ← schema.resolve path
  let image ← layout.image v
  return (path, layout, image)

theorem Schema.plan_eq_ok {schema : Schema} {address : Address} {v : Value} {path : Path}
    {layout : Layout} {image : Image} (h : schema.plan address v = .ok (path, layout, image)) :
    schema.path address = .ok path ∧ schema.resolve path = .ok layout ∧
      layout.image v = .ok image := by
  unfold plan at h
  cases hpath : schema.path address with
  | error e => simp [hpath, bind, Except.bind] at h
  | ok p =>
  cases hlayout : schema.resolve p with
  | error e => simp [hpath, hlayout, bind, Except.bind] at h
  | ok l =>
  cases himage : l.image v with
  | error e => simp [hpath, hlayout, himage, bind, Except.bind] at h
  | ok i =>
    obtain ⟨rfl, rfl, rfl⟩ : p = path ∧ l = layout ∧ i = image := by
      simpa [hpath, hlayout, himage, bind, Except.bind, pure, Except.pure] using h
    exact ⟨rfl, hlayout, himage⟩

theorem Schema.plan_of_image {schema : Schema} {address : Address} {v : Value} {path : Path}
    {layout : Layout} {image : Image} (hpath : schema.path address = .ok path)
    (hlayout : schema.resolve path = .ok layout) (himage : layout.image v = .ok image) :
    schema.plan address v = .ok (path, layout, image) := by
  simp [plan, hpath, hlayout, himage, bind, Except.bind, pure, Except.pure]

variable {δ : Type} [Device δ]

/-- Writes an image to what a path addresses. -/
def writeAt (schema : Schema) (path : Path) (layout : Layout) (image : Image) :
    Action (Session δ) Unit := do
  let offset ← tracePath schema .allowed path
  writeImage schema.size layout offset image
  if schema.config.syncOnWrite then Session.call Device.sync

/-! ## Actions on sessions -/

namespace Store

omit [Device δ] in
theorem wp_onSession_iff {α : Type} {action : Schema → Action (Session δ) α} {s : Store δ}
    {Q : α → Store δ → Prop} {E : Halt → Store δ → Prop} :
    WP (onSession action) s Q E ↔ WP (action s.schema) s.session (fun a t => Q a ⟨s.schema, t⟩)
      (fun e t => E e ⟨s.schema, t⟩) := by
  obtain ⟨schema, session⟩ := s
  simp only [WP, onSession]
  cases action schema session <;> rfl

omit [Device δ] in
theorem onSession_error {α : Type} {action : Schema → Action (Session δ) α} {s : Store δ} {e : Halt}
    {t : Session δ} (h : action s.schema s.session = .error e t) :
    onSession action s = .error e ⟨s.schema, t⟩ := by
  simp only [onSession, h]

omit [Device δ] in
theorem endState_onSession {α : Type} (action : Schema → Action (Session δ) α) (s : Store δ) :
    endState (onSession action) s = ⟨s.schema, endState (action s.schema) s.session⟩ := by
  obtain ⟨schema, session⟩ := s
  simp only [endState, onSession]
  cases action schema session <;> rfl

omit [Device δ] in
theorem schema_onSession {α : Type} (action : Schema → Action (Session δ) α) (s : Store δ) :
    (endState (onSession action) s).schema = s.schema := by
  rw [endState_onSession]

/-- A write is refused before the device is touched, or it traces its path and writes its image. -/
theorem set_eq (address : Address) (v : Value) (s : Store δ) :
    set address v s = match s.schema.plan address v with
      | .error e => .error (.error e) s
      | .ok (path, layout, image) => onSession (fun schema => writeAt schema path layout image) s := by
  obtain ⟨schema, session⟩ := s
  simp only [set, onSession, Schema.plan]
  cases hpath : schema.path address with
  | error e => simp only [ofExcept_error_bind]; rfl
  | ok path =>
  simp only [ofExcept_ok_bind]
  cases hlayout : schema.resolve path with
  | error e => simp only [bind, Except.bind, hlayout]; rfl
  | ok layout =>
  simp only [ofExcept_ok_bind]
  cases himage : layout.image v with
  | error e => simp only [bind, Except.bind, hlayout, himage]; rfl
  | ok image => simp only [bind, Except.bind, hlayout, himage]; rfl

end Store

/-! ## Writing and growing -/

section

variable [LawfulDevice δ] {schema : Schema} {s : Session δ} {E : Halt → Prop}

/-- A walk along a path that must not make chains longer ends where the path leads, if it leads
anywhere. -/
theorem reads_tracePath (hw : schema.rootLayout.WellFormed) (hfit : s.Fits)
    (hle : schema.size ≤ s.file.size) (path : Path) :
    Reads s (tracePath schema .forbidden path)
      (fun offset => ∃ layout,
        schema.rootLayout.placeAt schema.size s.file 0 path.steps = some (layout, offset))
      fun e => Damaged schema.size s.file (schema.part.cells s.file) e ∨
        schema.rootLayout.placeAt schema.size s.file 0 path.steps = none ∧ e.IsError ∧
          ∀ layout, schema.resolve path = .ok layout → e.IsOutOfRange :=
  (reads_traceFrom hw hfit (Nat.le_of_eq (Nat.zero_add _) |>.trans hle)).mono (fun _ h => h)
    fun _ he => he.imp_right fun he => ⟨he.1, he.2.1, fun layout hlayout =>
      let ⟨index, length, h⟩ := he.2.2 layout hlayout
      ⟨index, length, h.2⟩⟩

/-- A walk along a path that makes chains longer ends where the path leads. -/
theorem does_tracePath (hw : schema.rootLayout.WellFormed)
    (hs : Sound schema.size s.file (schema.part.cells s.file)) (path : Path) :
    Does schema.size schema.part (schema.rootLayout.tracing path.steps)
      (fun _ => ∀ layout, schema.resolve path ≠ .ok layout)
      (tracePath schema .allowed path) s fun offset s' =>
        ∃ layout, schema.rootLayout.placeAt schema.size s'.file 0 path.steps =
          some (layout, offset) :=
  does_traceFrom hw hs (Nat.le_of_eq (Nat.zero_add _) |>.trans hs.root_le)

/-- The place that a path leads to is of the type that it resolves to. -/
theorem Schema.resolve_of_placeAt {schema : Schema} {f : File} {path : Path} {p : Layout × Nat}
    (h : schema.rootLayout.placeAt schema.size f 0 path.steps = some p) :
    schema.resolve path = .ok p.1 :=
  Layout.descend_of_placeAt h

/-- Writing an image to the place that some steps lead to overlays that part of the root value. -/
theorem does_writePlace (hw : schema.rootLayout.WellFormed)
    (hs : Sound schema.size s.file (schema.part.cells s.file)) {steps : List UInt64}
    {layout : Layout} {offset : Nat} {image : Image} {v : Value}
    (hplace : schema.rootLayout.placeAt schema.size s.file 0 steps = some (layout, offset))
    (himage : layout.image v = .ok image) :
    Does schema.size schema.part (schema.rootLayout.writingAt steps layout v) E
      (writeImage schema.size layout offset image) s fun _ s' =>
        schema.part.value s'.file =
          schema.rootLayout.update (layout.overlay v) steps (schema.part.value s.file) := by
  have hle := Nat.le_of_eq (Nat.zero_add schema.size) |>.trans hs.root_le
  obtain ⟨hw', hle'⟩ := Layout.placeAt_le hw hle hplace
  obtain ⟨ctx, fill, hole, hsurrounds⟩ := Layout.placeAt_hole hw hs hplace
  refine (Does.hole hole hs (fun _ => hsurrounds.writingAt) fun hs =>
    does_writeImage hw' E s offset v image himage hs hle').mono fun _ s' _ _ h => ?_
  obtain ⟨-, hvalue, hoverlay⟩ := h
  have hold : schema.part.value s.file = _ := (hole s.file (Nat.le_refl _) .refl).2
  rw [hold, hsurrounds.update_self]
  exact hvalue.trans (congrArg fill hoverlay)

/-- Writing an image overlays the part of the root value that the path leads to. -/
theorem does_writeAt (hw : schema.rootLayout.WellFormed)
    (hs : Sound schema.size s.file (schema.part.cells s.file)) {path : Path} {layout : Layout}
    {image : Image} {v : Value} (hlayout : schema.resolve path = .ok layout)
    (himage : layout.image v = .ok image) :
    Does schema.size schema.part (schema.rootLayout.writingAt path.steps layout v) E
      (writeAt schema path layout image) s fun _ s' =>
        schema.part.value s'.file =
          schema.rootLayout.update (layout.overlay v) path.steps (schema.part.value s.file) := by
  rw [writeAt]
  refine Does.bind ((does_tracePath hw hs path).weaken (fun _ _ => Layout.writingAt_of_tracing)
    fun e he => absurd hlayout (he layout)) fun offset s₁ _ hp h => ?_
  obtain ⟨layout', hplace⟩ := h
  obtain rfl : layout' = layout :=
    Except.ok.inj ((Schema.resolve_of_placeAt hplace).symm.trans hlayout)
  refine Does.bind (does_writePlace hw hp.sound hplace himage) fun _ s₂ _ hp₂ hvalue => ?_
  have hall : schema.part.value s₂.file =
      schema.rootLayout.update (layout'.overlay v) path.steps (schema.part.value s.file) :=
    hvalue.trans hp.drift.1
  split
  · refine Does.of_same hp₂.sound ((wp_sync s₂).mono (fun _ s₃ h => ⟨h, ?_⟩) fun _ _ h =>
      ⟨h.1, fun hinf => absurd hinf h.2⟩)
    rw [h.file_eq]
    exact hall
  · exact Does.pure hp₂.sound hall

end

/-! ## Requests -/

/-- A call on a store other than `Store.init`. -/
inductive Request where
  | set (address : Address) (v : Value)
  | trace (growth : Growth) (address : Address)
  | get (address : Address)
  | audit
  | size
  | stats
  | sync

/-- The store after a request, whether it succeeded or not. -/
def Request.after (s : Store δ) : Request → Store δ
  | set address v => endState (Store.set address v) s
  | trace growth address => endState (Store.trace growth address) s
  | get address => endState (Store.get address) s
  | audit => endState Store.audit s
  | size => endState Store.size s
  | stats => endState Store.stats s
  | sync => endState Store.sync s

namespace Store

theorem endState_set (address : Address) (v : Value) (s : Store δ) :
    endState (set address v) s = match s.schema.plan address v with
      | .error _ => s
      | .ok (path, layout, image) =>
        endState (onSession fun schema => writeAt schema path layout image) s := by
  rw [endState, set_eq]
  cases s.schema.plan address v <;> rfl

theorem endState_trace (growth : Growth) (address : Address) (s : Store δ) :
    endState (trace growth address) s = match s.schema.path address with
      | .error _ => s
      | .ok path => endState (onSession fun schema => tracePath schema growth path) s := by
  rw [trace, endState_onSession]
  cases s.schema.path address with
  | error e => rfl
  | ok path =>
    dsimp only
    rw [ofExcept_ok_bind, endState_onSession]

section

variable [LawfulDevice δ] {R : Session δ → Session δ → Prop}

instance [ReadStable R] : Keeps R (MonadState.get : Action (Session δ) (Session δ)) :=
  ⟨ReadStable.refl⟩

omit [Device δ] [LawfulDevice δ] in
/-- An action on the session leaves it as the action does. -/
theorem keeps_onSession {α : Type} {action : Schema → Action (Session δ) α} (s : Store δ)
    [h : Keeps R (action s.schema)] : R s.session (endState (onSession action) s).session := by
  rw [endState_onSession]
  exact h.holds s.session

/-- What an audit reads is not counted, so it leaves the session as it is. -/
theorem same_audit (s : Store δ) : Same s.session (endState audit s).session := by
  obtain ⟨schema, device, counters⟩ := s
  have h : Same ⟨device, {}⟩ (endState (Audit.run .wraps schema) ⟨device, {}⟩) := Keeps.holds _
  unfold endState audit auditWith onSession at *
  dsimp only
  cases hrun : Audit.run .wraps schema (δ := δ) ⟨device, {}⟩ with
  | ok report s' =>
    rw [hrun] at h
    exact ⟨h.file_eq, rfl, h.ledger_eq⟩
  | error e s' =>
    rw [hrun] at h
    exact ⟨h.file_eq, rfl, h.ledger_eq⟩

theorem same_get (address : Address) (s : Store δ) :
    Same s.session (endState (get address) s).session := keeps_onSession s

theorem same_size (s : Store δ) : Same s.session (endState size s).session := keeps_onSession s

theorem same_stats (s : Store δ) : Same s.session (endState stats s).session := keeps_onSession s

theorem same_sync (s : Store δ) : Same s.session (endState sync s).session := by
  rw [sync, onDevice, endState_onSession]
  exact ((wp_sync s.session).mono (fun _ _ h => h) fun _ _ h => h.1).endState

end

end Store

namespace Request

variable [LawfulDevice δ] (s : Store δ) (r : Request)

omit [LawfulDevice δ] in
theorem schema_eq : (r.after s).schema = s.schema := by
  cases r with
  | sync => exact Store.schema_onSession (fun _ => Session.call Device.sync) s
  | audit =>
    rw [after, Store.audit, Store.auditWith]
    exact Store.schema_onSession _ s
  | _ => exact Store.schema_onSession _ s

omit [LawfulDevice δ] in
/-- A request keeps what its calls keep, unless it is an audit, whose calls are not counted. -/
theorem keeps {R : Session δ → Session δ → Prop} [GrowStable R] (hr : r ≠ .audit) :
    R s.session (r.after s).session := by
  cases r with
  | audit => exact absurd rfl hr
  | sync =>
    show R s.session (endState (Store.onSession fun _ => Session.call Device.sync) s).session
    exact Store.keeps_onSession s
  | _ => exact Store.keeps_onSession s

/-- No request makes the file shorter. -/
theorem sizeLe : SizeLe s.session (r.after s).session := by
  cases r with
  | audit => exact (Store.same_audit s).sizeLe
  | _ => exact keeps s _ nofun

variable {s}

/-- On a file that is in order, a request is work on the root record and the blocks behind it. -/
theorem progress (hw : s.schema.rootLayout.WellFormed)
    (hs : Sound s.schema.size s.session.file (s.schema.part.cells s.session.file))
    (hfit : (r.after s).session.Fits) :
    Progress s.schema.size s.schema.part s.session (r.after s).session := by
  cases r with
  | set address v =>
    rw [after, Store.endState_set] at hfit ⊢
    cases hplan : s.schema.plan address v with
    | error e => exact .of_same hs (.refl _)
    | ok plan =>
      obtain ⟨path, layout, image⟩ := plan
      obtain ⟨-, hlayout, himage⟩ := Schema.plan_eq_ok hplan
      simp only [hplan, Store.endState_onSession] at hfit ⊢
      exact (does_writeAt (E := fun _ => True) hw hs hlayout himage).work hfit |>.toProgress
  | trace growth address =>
    rw [after, Store.endState_trace] at hfit ⊢
    cases hpath : s.schema.path address with
    | error e => exact .of_same hs (.refl _)
    | ok path =>
      simp only [hpath, Store.endState_onSession] at hfit ⊢
      cases growth with
      | forbidden => exact .of_same hs (Keeps.holds s.session)
      | allowed => exact (does_tracePath hw hs path).work hfit |>.toProgress
  | get address => exact .of_same hs (Store.same_get address s)
  | audit => exact .of_same hs (Store.same_audit s)
  | size => exact .of_same hs (Store.same_size s)
  | stats => exact .of_same hs (Store.same_stats s)
  | sync => exact .of_same hs (Store.same_sync s)

end Request

end RecordFile
