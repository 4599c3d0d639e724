import RecordFile.Proofs.Store.Reached

/-!
# A store is a tree of values

On a device that does not fail, a store is the value of its root record, which reading the root gives
(`Store.get_root`). A write that is planned changes this value as `Layout.update` and
`Layout.overlay` say and does nothing else (`Store.wp_set`); a write that cannot be planned changes
nothing. `Store.set_refines_update` says both of every store that calls lead to.
-/

namespace RecordFile

open Session

namespace Store

variable {δ : Type} [Device δ] [LawfulDevice δ] {schema : Schema} {mark : Nat} {s : Store δ}

/-- Reading the root of a store, whatever its file holds, gives its value and follows its links, or
they are not all in order. -/
theorem wp_get_root {R : List Nat → Session δ → Session δ → Prop} [Trail R]
    (hw : s.schema.rootLayout.WellFormed) (hinf : LawfulDevice.infallible δ) (hfit : s.session.Fits)
    (hle : s.schema.size ≤ s.session.file.size) : WP (get (.dotted "")) s
      (fun v s' => R (0 :: follows (s.schema.part.cells s.session.file)) s.session s'.session ∧
        v = s.schema.part.value s.session.file ∧
        ∀ c ∈ s.schema.part.cells s.session.file, c.Fits s.schema.size s.session.file)
      fun _ _ => ∃ c ∈ s.schema.part.cells s.session.file,
        ¬ c.Fits s.schema.size s.session.file := by
  have hread : Trails R s.session (readValue s.schema.size s.schema.rootLayout 0)
      (0 :: follows (s.schema.part.cells s.session.file)) _ _ :=
    trails_readValue hw hfit (Nat.le_of_eq (Nat.zero_add _) |>.trans hle)
  rw [get, wp_onSession_iff]
  show WP (readValue s.schema.size s.schema.rootLayout 0) s.session _ _
  exact (hread s.session (.refl _)).mono (fun _ _ h => h) fun _ _ h => (h.2 hinf).2

/-- Reading the root of a store that is in order gives its value. -/
theorem get_root (hs : InOrder mark s) (hinf : LawfulDevice.infallible δ) (hfit : s.session.Fits) :
    ∃ s', get (.dotted "") s = .ok (s.schema.part.value s.session.file) s' ∧
      Same s.session s'.session := by
  have hget := wp_get_root (R := fun _ => Same) hs.wellFormed hinf hfit hs.sound.root_le
  obtain ⟨v, s', hok, hsame, rfl, -⟩ := hget.exists_ok fun _ _ _ ⟨c, hc, hnot⟩ =>
    hnot (hs.sound.fits c hc)
  exact ⟨s', hok, hsame⟩

/-- A planned write updates the value of the root. -/
theorem wp_set (hs : InOrder mark s) (hinf : LawfulDevice.infallible δ) {address : Address}
    {v : Value} {path : Path} {layout : Layout} {image : Image}
    (hplan : s.schema.plan address v = .ok (path, layout, image))
    (hfit : (endState (set address v) s).session.Fits) :
    ∃ s', set address v s = .ok () s' ∧ s'.schema = s.schema ∧
      s.schema.part.value s'.session.file =
        s.schema.rootLayout.update (layout.overlay v) path.steps
          (s.schema.part.value s.session.file) := by
  obtain ⟨-, hlayout, himage⟩ := Schema.plan_eq_ok hplan
  have hwrite := does_writeAt (E := fun _ => False) hs.wellFormed hs.sound hlayout himage
  have hset : set address v s =
      onSession (fun schema => writeAt schema path layout image) s := by rw [set_eq, hplan]
  rw [endState_set, hplan] at hfit
  simp only [endState_onSession] at hfit
  have hwp : WP (onSession fun schema => writeAt schema path layout image) s
      (fun _ s' => s'.schema = s.schema ∧ s.schema.part.value s'.session.file =
        s.schema.rootLayout.update (layout.overlay v) path.steps
          (s.schema.part.value s.session.file))
      fun _ _ => False :=
    wp_onSession_iff.mpr ((Ends.wp hwrite hfit).mono (fun _ _ h => ⟨rfl, h.2⟩)
      fun _ _ h => h.2 hinf)
  obtain ⟨⟨⟩, s', hok, h⟩ := hwp.exists_ok fun _ _ _ h => h
  exact ⟨s', hset.trans hok, h⟩

/-- On a device that does not fail, reading the root of a store gives a value, and every write either
is refused for its path or its value and changes nothing, or it updates that value. -/
theorem set_refines_update (hschema : schema.Compiled) (h : Reached schema mark s)
    (hinf : LawfulDevice.infallible δ) (address : Address) (v : Value)
    (hfit : (endState (set address v) s).session.Fits) :
    ∃ old s₀, get (.dotted "") s = .ok old s₀ ∧ s₀.session.file = s.session.file ∧
      match schema.plan address v with
      | .error e => set address v s = .error (.error e) s
      | .ok (path, layout, _) => ∃ s' s'', set address v s = .ok () s' ∧
        get (.dotted "") s' =
          .ok (schema.rootLayout.update (layout.overlay v) path.steps old) s'' := by
  have hfit₀ : s.session.Fits := Nat.lt_of_le_of_lt ((Request.set address v).sizeLe s) hfit
  have hs := h.inOrder hschema hfit₀
  obtain rfl := h.schema_eq
  obtain ⟨s₀, hget, hsame⟩ := get_root hs hinf hfit₀
  refine ⟨_, s₀, hget, hsame.file_eq, ?_⟩
  cases hplan : s.schema.plan address v with
  | error e => rw [set_eq, hplan]
  | ok plan =>
    obtain ⟨path, layout, image⟩ := plan
    obtain ⟨s', hset, hschema', hvalue⟩ := wp_set hs hinf hplan hfit
    have hend : endState (set address v) s = s' := endState_ok hset
    have hlater : Later s s' := hend ▸ (Later.refl s).request (.set address v)
    rw [hend] at hfit
    obtain ⟨s'', hget', -⟩ := get_root (hlater.inOrder hs hfit) hinf hfit
    rw [hschema', hvalue] at hget'
    exact ⟨s', s'', hset, hget'⟩

theorem set_refines_update_log : ∃ old s₀ s' s'', get (.dotted "") emptyLog = .ok old s₀ ∧
    set (.path ⟨[1, 3]⟩) (.uint 7) emptyLog = .ok () s' ∧
      get (.dotted "") s' = .ok (Schema.log.rootLayout.update
        ((Layout.scalar .uint8).overlay (.uint 7)) [1, 3] old) s'' := by
  have hplan : Schema.log.plan (.path ⟨[1, 3]⟩) (.uint 7) =
      .ok (⟨[1, 3]⟩, .scalar .uint8, .run ⟨#[7]⟩) := rfl
  obtain ⟨old, s₀, hold, -, hnew⟩ := set_refines_update Schema.log_compiled reached_emptyLog trivial
    (.path ⟨[1, 3]⟩) (.uint 7) (by decide +kernel)
  rw [hplan] at hnew
  obtain ⟨s', s'', hset, hget⟩ := hnew
  exact ⟨old, s₀, s', s'', hold, hset, hget⟩

end Store

end RecordFile
