import RecordFile.Proofs.Store.Mirrors
import RecordFile.Proofs.Store.Permanence
import RecordFile.Proofs.Walk.Tracing

/-!
# Tracing with growth

On any file, tracing with growth does what tracing without it does, and writes nothing, unless a
chain is too short (`Store.foretells_trace`). On a store that calls have led to, it then appends the
blocks that are missing and no more, and tracing without growth finds from then on what it found
(`Store.trace_allowed`).
-/

namespace RecordFile

open Session

section

variable {δ : Type}

theorem Foretells.onSession {α : Type} {m m' : Schema → Action (Session δ) α}
    (h : ∀ schema, Foretells (m schema) (m' schema)) :
    Foretells (Store.onSession m) (Store.onSession m') := by
  intro s
  rw [Store.wp_onSession_iff]
  refine (h s.schema s.session).mono (fun a t ha => ?_) fun e t he =>
    he.imp_right Store.onSession_error
  simp only [Store.onSession, ha]

/-- Tracing with growth does what tracing without it does, unless a chain is too short for that. -/
theorem Store.foretells_trace [Device δ] (address : Address) :
    Foretells (trace (δ := δ) .forbidden address) (trace .allowed address) :=
  .onSession fun schema => .bind (.refl _) fun path =>
    foretells_traceFrom path 0 schema.rootLayout 0 path.steps

end

variable {δ : Type} [Device δ] [LawfulDevice δ]

section

variable {schema : Schema} {s : Session δ}

/-- The last block of a chain that the steps lead to links none. -/
theorem Located.link_getLast {steps : List UInt64} {a : ArrayLayout} {start last : Nat}
    (hat : Located schema s steps (.array a) start) (hext : a.extent = .chained)
    (hlast : (s.file.chain schema.size a start).getLast? = some last) : s.file.link a last = 0 :=
  have hmem := ArrayLayout.link_mem_of_mem_chain hext (List.mem_of_getLast? hlast)
  (hat.sound.fits _ hmem).link_eq_zero hext (File.next?_getLast hlast)

/-- A trace that runs past the end of a chain makes room for what it is looking for. -/
theorem Located.wp_tracePath_growth {path : Path} {layout : Layout} {before below : List UInt64}
    {step : UInt64} {a : ArrayLayout} {start last : Nat}
    (hat : Located schema s before (.array a) start) (hinf : LawfulDevice.infallible δ)
    (hfit : s.Fits) (hext : a.extent = .chained) (hlayout : schema.resolve path = .ok layout)
    (hsteps : path.steps = before ++ step :: below)
    (hlast : (s.file.chain schema.size a start).getLast? = some last)
    (hindex : (s.file.chain schema.size a start).length * a.capacity ≤ step.toNat) :
    WP (tracePath schema .allowed path) s
      (fun _ s' => Extended (a.growth last s.file.size (s.file.chain schema.size a start).length
        step.toNat below) (a.linkOffset last) linkSize s s')
      (Overflows (a.growth last s.file.size (s.file.chain schema.size a start).length step.toNat
        below) s) := by
  have hroot := Nat.le_of_eq (Nat.zero_add _) |>.trans hat.rootSound.root_le
  have hdescend : schema.rootLayout.descend path 0 path.steps = .ok layout := hlayout
  rw [hsteps, Layout.descend_append (Layout.descend_of_placeAt hat.placeAt_eq)] at hdescend
  obtain ⟨_, hchild, hdescend⟩ := Layout.descend_cons.mp hdescend
  obtain ⟨-, rfl⟩ := Layout.child_array_eq_ok_iff.mp hchild
  rw [tracePath, hsteps]
  refine wp_traceFrom_append hinf hat.rootWellFormed hfit hroot hat.placeAt_eq fun s₁ hsame => ?_
  have hat₁ := hat.alike hsame.alike
  rw [← hsame.file_eq] at hlast hindex ⊢
  exact (wp_traceFrom_growth hinf hat₁.le.1 hext hdescend (hsame.alike.fits hfit) hat₁.le.2 hlast
    (hat₁.link_getLast hext hlast) hindex).mono (fun _ _ h => h.of_alike hsame.alike)
      fun _ _ h => h.of_alike hsame.alike

end

namespace Store

variable {s : Store δ} {address : Address} {path : Path} {layout : Layout}

/-- Where tracing without growth is out of range, it runs past the end of a chain. -/
theorem overrun_of_trace {mark : Nat} (hs : InOrder mark s) (hfit : s.session.Fits)
    (hinf : LawfulDevice.infallible δ) (hpath : s.schema.path address = .ok path)
    (hlayout : s.schema.resolve path = .ok layout) {index length : Nat} {s' : Store δ}
    (h : trace .forbidden address s = .error (.error (.indexOutOfRange index length)) s') :
    ∃ o : s.schema.rootLayout.Overrun s.schema.size s.session.file 0 path.steps,
      index = o.step.toNat ∧ length = o.blocks * o.array.capacity := by
  have htrace : WP (trace .forbidden address) s (fun _ _ => True)
      fun e _ => ∃ o : s.schema.rootLayout.Overrun s.schema.size s.session.file 0 path.steps,
        e = .error (.indexOutOfRange o.step.toNat (o.blocks * o.array.capacity)) := by
    rw [trace, wp_onSession_iff, hpath, ofExcept_ok_bind]
    have hroot := Nat.le_of_eq (Nat.zero_add _) |>.trans hs.sound.root_le
    refine (reads_traceFrom hs.wellFormed hfit hroot s.session (.refl _)).mono
      (fun _ _ _ => trivial) fun e _ h => ?_
    rcases h.2 hinf with hdamaged | ⟨hnone, -, hoverrun⟩
    · exact absurd hdamaged hs.sound.not_damaged
    · obtain ⟨_, _, hfound, rfl⟩ := hoverrun layout hlayout
      obtain ⟨o, ho⟩ := Layout.exists_overrun hlayout hnone
      obtain ⟨rfl, rfl⟩ := Prod.mk.inj (Option.some.inj (ho.symm.trans hfound))
      exact ⟨o, rfl⟩
  obtain ⟨o, ho⟩ := htrace.error h
  obtain ⟨rfl, rfl⟩ : index = o.step.toNat ∧ length = o.blocks * o.array.capacity := by
    simpa using ho
  exact ⟨o, rfl, rfl⟩

/-- What has been traced with growth is found without it from then on. -/
theorem trace_of_trace_allowed {mark : Nat} (hs : InOrder mark s) (hinf : LawfulDevice.infallible δ)
    (hpath : s.schema.path address = .ok path) {offset : Nat} {s' : Store δ}
    (h : trace .allowed address s = .ok offset s') (hfit : s'.session.Fits) :
    ∃ s'', trace .forbidden address s' = .ok offset s'' := by
  have hl : Later s s' := endState_ok h ▸ (Later.refl s).request (.trace .allowed address)
  have htrace : WP (trace .allowed address) s (fun offset s' => s'.session.Fits → ∃ layout,
      s.schema.rootLayout.placeAt s.schema.size s'.session.file 0 path.steps =
        some (layout, offset)) fun _ _ => True := by
    rw [trace, wp_onSession_iff, hpath, ofExcept_ok_bind]
    exact WP.mono (does_tracePath hs.wellFormed hs.sound path) (fun _ _ h hfit => (h hfit).2)
      fun _ _ _ => trivial
  obtain ⟨layout, hplace⟩ := htrace.ok h hfit
  rw [← hl.schema_eq] at hplace hpath
  exact trace_of_placeAt (hl.inOrder hs hfit) hinf hfit hpath hplace

/-- On any file, tracing with growth gives what tracing without growth gives, an offset or a broken
link, and writes nothing then. On a store that calls have led to, where tracing without growth is
out of range, it runs past the end of a chain. As long as offsets can tell how long the file gets,
tracing with growth then appends the blocks that are missing, one after the other, changes nothing
else but the link of the last block that was there, and gives the offset that tracing without growth
finds from then on. The new blocks are zero but for the links that lead from one to the next. -/
theorem trace_allowed (hschema : s.schema.Compiled) (hfit : s.session.Fits)
    (hinf : LawfulDevice.infallible δ) (hpath : s.schema.path address = .ok path)
    (hlayout : s.schema.resolve path = .ok layout) :
    (∀ offset s', trace .forbidden address s = .ok offset s' →
      trace .allowed address s = .ok offset s' ∧ Same s.session s'.session) ∧
    (∀ e s', trace .forbidden address s = .error e s' → e.IsCorruption →
      trace .allowed address s = .error e s' ∧ Same s.session s'.session) ∧
    ∀ mark index length s', Reached s.schema mark s →
      trace .forbidden address s = .error (.error (.indexOutOfRange index length)) s' →
      ∃ o : s.schema.rootLayout.Overrun s.schema.size s.session.file 0 path.steps,
        index = o.step.toNat ∧ length = o.blocks * o.array.capacity ∧
        (s.session.file.size + Extension.bytes o.growth < wordLimit →
          ∃ offset s₁ s₂, trace .allowed address s = .ok offset s₁ ∧
            Extended o.growth (o.array.linkOffset o.last) linkSize s.session s₁.session ∧
            (∀ x, s.session.file.size ≤ x → x < s₁.session.file.size →
              (∀ e ∈ o.growth, ¬ e.Covers x) → s₁.session.file.byte? x = some 0) ∧
            trace .forbidden address s₁ = .ok offset s₂) := by
  have hsame : WP (trace .forbidden address) s (fun _ s' => Same s.session s'.session)
      fun _ s' => Same s.session s'.session := by
    rw [trace, wp_onSession_iff, hpath, ofExcept_ok_bind]
    exact .of_endState (P := Same s.session) (Keeps.holds s.session)
  refine ⟨fun offset s' h => ⟨(foretells_trace address s).ok h, hsame.ok h⟩, fun e s' h he => ?_,
    fun mark index length s' hreached h => ?_⟩
  · refine ⟨((foretells_trace address s).error h).resolve_left ?_, hsame.error h⟩
    obtain ⟨_, rfl⟩ := he
    rintro ⟨_, _, h⟩
    cases h
  · have hs := hreached.inOrder hschema hfit
    obtain ⟨o, hindex, hlength⟩ := overrun_of_trace hs hfit hinf hpath hlayout h
    refine ⟨o, hindex, hlength, fun hbound => ?_⟩
    have hgrow : WP (trace .allowed address) s
        (fun _ s' => Extended o.growth (o.array.linkOffset o.last) linkSize s.session s'.session)
        fun e s' => Overflows o.growth s.session e s'.session := by
      rw [trace, wp_onSession_iff, hpath, ofExcept_ok_bind]
      exact Located.wp_tracePath_growth ⟨hs.wellFormed, hs.sound, o.placeAt_eq⟩ hinf hfit o.chained
        hlayout o.steps_eq o.getLast?_eq o.length_le
    obtain ⟨offset, s₁, hallowed, hextended⟩ := hgrow.exists_ok fun e s' _ h =>
      h.not_fits (Nat.lt_of_le_of_lt h.size_le hbound)
    have hfit₁ : s₁.session.Fits := Nat.lt_of_le_of_lt (Nat.le_of_eq hextended.file.size_eq) hbound
    obtain ⟨s₂, hforbidden⟩ := trace_of_trace_allowed hs hinf hpath hallowed hfit₁
    exact ⟨offset, s₁, s₂, hallowed, hextended, fun _ => hextended.file.byte?_eq_zero, hforbidden⟩

/-- An element two blocks behind the only one of a chain. -/
theorem trace_allowed_log : ∃ offset s₁ s₂,
    trace .allowed (.path ⟨[1, 5]⟩) emptyLog = .ok offset s₁ ∧
      Extended [⟨.bytePairs, 1⟩, ⟨.bytePairs, 11⟩] 3 8 emptyLog.session s₁.session ∧
      trace .forbidden (.path ⟨[1, 5]⟩) s₁ = .ok offset s₂ := by
  have hresolve : Schema.log.resolve ⟨[1, 5]⟩ = .ok (.scalar .uint8) := rfl
  have hshort : WP (trace .forbidden (.path ⟨[1, 5]⟩)) emptyLog (fun _ _ => False)
      fun e _ => (e matches .error (.indexOutOfRange 5 2)) = true := by decide +kernel
  have hchain : emptyLog.session.file.chain emptyLog.schema.size .bytePairs 1 = [1] :=
    File.chain_of_none (by decide +kernel)
  obtain ⟨-, -, hgrow⟩ := trace_allowed (s := emptyLog) Schema.log_compiled (by decide +kernel)
    trivial (rfl : emptyLog.schema.path (.path ⟨[1, 5]⟩) = _) hresolve
  cases h : trace .forbidden (.path ⟨[1, 5]⟩) emptyLog with
  | ok _ s' => exact (hshort.ok h).elim
  | error e s' =>
    have he := hshort.error h
    split at he
    swap
    · cases he
    obtain ⟨o, -, -, hgrow⟩ := hgrow 0 5 2 s' reached_emptyLog h
    have ho : o.growth = [⟨.bytePairs, 1⟩, ⟨.bytePairs, 11⟩] ∧ o.array.linkOffset o.last = 3 := by
      obtain ⟨before, step, below, a, start, last, hsteps, hplace, -, hlast, -⟩ := o
      obtain _ | ⟨first, _ | ⟨second, rest⟩⟩ := before
      · cases hplace
      · obtain ⟨rfl, rfl, rfl⟩ : first = 1 ∧ step = 5 ∧ below = [] := by
          simpa [eq_comm] using hsteps
        obtain ⟨rfl, rfl⟩ : ArrayLayout.bytePairs = a ∧ 1 = start := by
          simpa using (show some (Layout.array .bytePairs, 1) = _ from hplace)
        obtain rfl : 1 = last := by
          rw [hchain] at hlast
          exact Option.some.inj hlast
        simp only [Layout.Overrun.growth, Layout.Overrun.blocks, hchain]
        exact ⟨rfl, rfl⟩
      · simp at hsteps
    rw [ho.1, ho.2] at hgrow
    obtain ⟨offset, s₁, s₂, hallowed, hextended, -, hforbidden⟩ := hgrow (by decide +kernel)
    exact ⟨offset, s₁, s₂, hallowed, hextended, hforbidden⟩

end Store

end RecordFile
