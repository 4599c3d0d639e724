import RecordFile.Proofs.Store.Accounting
import RecordFile.Proofs.Store.Refinement

/-!
# Writes that break off

A write may break off at any call that the device fails. What it has done by then is contained
(`Store.set_interrupted`): the file is in order, scalars that were not to be written are what they
were, those that were to be written are what they were or what they were to become, and writing the
same value again makes the store what the first write would have made it.

The proof is that of the write itself, which is work that lets the root value drift as
`Layout.writingAt` says and no further, whichever way it ends (`does_writeAt`).
-/

namespace RecordFile

open Session

/-- The steps to a scalar end at its kind. -/
theorem Layout.kind?_of_descend {l : Layout} {path : Path} {position : Nat} {steps : List UInt64}
    {kind : Scalar} (h : l.descend path position steps = .ok (.scalar kind)) :
    l.kind? (steps.map UInt64.toNat) = some kind := by
  induction steps generalizing l position with
  | nil =>
    obtain rfl : l = .scalar kind := Except.ok.inj h
    rfl
  | cons step rest ih =>
    cases l with
    | scalar k => exact absurd h (descend_scalar k _)
    | record r =>
      cases hfield : r.fields[step.toNat]? with
      | none => exact absurd h (descend_record_of_none hfield _)
      | some field =>
        rw [descend_record_of_some hfield] at h
        rw [List.map_cons, kind?, hfield]
        exact ih h
    | array a =>
      by_cases hindex : a.extent = .fixed ∧ a.capacity ≤ step.toNat
      · exact absurd h (descend_array_of_le hindex _)
      · rw [descend_array hindex] at h
        exact ih h

namespace Store

variable {δ : Type} [Device δ] [LawfulDevice δ] {schema : Schema} {mark : Nat} {s s' : Store δ}

/-- Where no call fails, reading what the path leads to gives the value. -/
def Holds (s : Store δ) (q : Path) (x : Value) : Prop := ∃ t, get (.path q) s.onFile = .ok x t

/-- What the path leads to lies behind the end of a chain. -/
def Lacks (s : Store δ) (q : Path) : Prop :=
  ∃ e t, get (.path q) s.onFile = .error e t ∧ e.IsOutOfRange

/-- Reading a path gives what is at the end of its steps in the value of the root, if anything is. -/
theorem wp_get_path (hs : InOrder mark s) (hinf : LawfulDevice.infallible δ)
    (hfit : s.session.Fits) {q : Path} {layout : Layout}
    (hlayout : s.schema.resolve q = .ok layout) :
    WP (get (.path q)) s
      (fun x _ => (s.schema.part.value s.session.file).at? (q.steps.map UInt64.toNat) = some x)
      (fun e _ => (s.schema.part.value s.session.file).at? (q.steps.map UInt64.toNat) = none ∧
        e.IsOutOfRange) := by
  have hpath : s.schema.path (.path q) = .ok q := by
    simp [Schema.path, hlayout, bind, Except.bind]
  have hat : (s.schema.part.value s.session.file).at? (q.steps.map UInt64.toNat) = _ :=
    Layout.value_at? q.steps
  have hle := Nat.le_trans (Nat.le_of_eq (Nat.zero_add _)) hs.sound.root_le
  rw [get, wp_onSession_iff, hpath, ofExcept_ok_bind, hlayout, ofExcept_ok_bind, WP.bind_iff]
  refine (reads_tracePath hs.wellFormed hfit hs.sound.root_le q s.session (.refl _)).mono
    (fun offset t h => ?_) fun e t h => ?_
  · obtain ⟨hsame, layout', hplace⟩ := h
    obtain rfl := Except.ok.inj ((Schema.resolve_of_placeAt hplace).symm.trans hlayout)
    obtain ⟨hw, hend⟩ := Layout.placeAt_le hs.wellFormed hle hplace
    obtain ⟨_, _, hole, -⟩ := Layout.placeAt_hole hs.wellFormed hs.sound hplace
    refine (reads_readValue hw hfit hend t hsame).mono (fun x _ h => ?_) fun e _ h => ?_
    · rw [hat, hplace, h.2]
      rfl
    · exact absurd (h.2 hinf) (hole.sound hs.sound).not_damaged
  · rcases h.2 hinf with hdamaged | ⟨hnone, -, hrange⟩
    · exact absurd hdamaged hs.sound.not_damaged
    · rw [hat, hnone]
      exact ⟨rfl, hrange layout hlayout⟩

section

variable {q : Path} {layout : Layout} (hs : InOrder mark s) (hfit : s.session.Fits)
  (hlayout : s.schema.resolve q = .ok layout)

include hs hfit hlayout

theorem holds_iff {x : Value} : s.Holds q x ↔
    (s.schema.part.value s.session.file).at? (q.steps.map UInt64.toNat) = some x := by
  have hget := wp_get_path hs.onFile trivial hfit hlayout
  refine ⟨fun ⟨t, ht⟩ => hget.ok ht, fun hx => ?_⟩
  obtain ⟨y, t, ht, hy⟩ := hget.exists_ok fun e t _ h => by
    cases hx.symm.trans h.1
  obtain rfl := Option.some.inj (hx.symm.trans hy)
  exact ⟨t, ht⟩

theorem lacks_iff : s.Lacks q ↔
    (s.schema.part.value s.session.file).at? (q.steps.map UInt64.toNat) = none := by
  have hget := wp_get_path hs.onFile trivial hfit hlayout
  refine ⟨fun ⟨e, t, ht, _⟩ => (hget.error ht).1, fun hnone => ?_⟩
  cases ht : get (.path q) s.onFile with
  | ok x t => cases (hget.ok ht).symm.trans hnone
  | error e t => exact ⟨e, t, ht, (hget.error ht).2⟩

end

/-- A write that breaks off has let the value of the root drift, and nothing else. -/
theorem drift_set (hs : InOrder mark s) {address : Address} {v : Value} {path : Path}
    {layout : Layout} {image : Image} (hplan : s.schema.plan address v = .ok (path, layout, image))
    (hfit : (endState (set address v) s).session.Fits) :
    (s.schema.rootLayout.writingAt path.steps layout v).rel
      (s.schema.part.value s.session.file)
      (s.schema.part.value (endState (set address v) s).session.file) := by
  obtain ⟨-, hlayout, himage⟩ := Schema.plan_eq_ok hplan
  rw [endState_set, hplan] at hfit ⊢
  simp only [endState_onSession] at hfit ⊢
  exact (does_writeAt (E := fun _ => True) hs.wellFormed hs.sound hlayout himage).work hfit |>.drift

/-- Reading the root after a planned write gives the updated value. -/
theorem get_of_set (hs : InOrder mark s) (hinf : LawfulDevice.infallible δ) {address : Address}
    {v : Value} {path : Path} {layout : Layout} {image : Image}
    (hplan : s.schema.plan address v = .ok (path, layout, image))
    (hfit : (endState (set address v) s).session.Fits) :
    ∃ s₁ t, set address v s = .ok () s₁ ∧ get (.dotted "") s₁ =
      .ok (s.schema.rootLayout.update (layout.overlay v) path.steps
        (s.schema.part.value s.session.file)) t := by
  obtain ⟨s₁, hset, hsame, hvalue⟩ := wp_set hs hinf hplan hfit
  have hend : endState (set address v) s = s₁ := endState_ok hset
  have hlater : Later s s₁ := hend ▸ (Later.refl s).request (.set address v)
  rw [hend] at hfit
  obtain ⟨t, hget, -⟩ := get_root (hlater.inOrder hs hfit) hinf hfit
  rw [hsame, hvalue] at hget
  exact ⟨s₁, t, hset, hget⟩

/-- A write that is planned and breaks off, wherever it does, is contained, and a second attempt
completes it: an audit finds nothing wrong; a scalar that it does not supply reads as before; one that
it supplies is still not there, or reads as before, as zero if it is new, or as what was supplied; and
on the file that it leaves behind the write gives the root that it would have given at first. -/
theorem set_interrupted (hschema : schema.Compiled) (h : Reached schema mark s) {address : Address}
    {v : Value} {path : Path} {layout : Layout} {image : Image} {e : Halt}
    (hplan : schema.plan address v = .ok (path, layout, image))
    (hset : set address v s = .error e s') (hfit : s'.session.Fits) :
    (∃ report t, audit s'.onFile = .ok report t ∧ report.isClean = true) ∧
    (∀ q kind, schema.resolve q = .ok (.scalar kind) →
      match layout.suppliedAt? (path.steps.map UInt64.toNat) v (q.steps.map UInt64.toNat) with
      | none => ∀ x, s.Holds q x → s'.Holds q x
      | some x => s.Lacks q ∧ s'.Lacks q ∨ ∃ y, s'.Holds q y ∧
          (s.Holds q y ∨ s.Lacks q ∧ y = kind.ofDigits 0 ∨ kind.encode x >>= kind.decode = .ok y)) ∧
    ((endState (set address v) s.onFile).session.Fits →
      (endState (set address v) s'.onFile).session.Fits →
      ∃ root s₁ t₁ s₂ t₂, set address v s.onFile = .ok () s₁ ∧ get (.dotted "") s₁ = .ok root t₁ ∧
        set address v s'.onFile = .ok () s₂ ∧ get (.dotted "") s₂ = .ok root t₂) := by
  have hend : endState (set address v) s = s' := by rw [endState, hset]
  have hfit₀ : s.session.Fits :=
    Nat.lt_of_le_of_lt ((Request.set address v).sizeLe s) (by rwa [Request.after, hend])
  have hs := h.inOrder hschema hfit₀
  have hs' : InOrder mark s' := hend ▸ (h.request (.set address v)).inOrder hschema (hend ▸ hfit)
  have hsame : s'.schema = s.schema := hend ▸ (Request.set address v).schema_eq s
  obtain rfl := h.schema_eq
  have hdrift := drift_set hs hplan (by rwa [hend])
  rw [hend] at hdrift
  refine ⟨?_, fun q kind hkind => ?_, fun hfit₁ hfit₂ => ?_⟩
  · obtain ⟨report, t, hok, hclean, -⟩ := audit_of_inOrder hs'.onFile trivial hfit
    exact ⟨report, t, hok, hclean⟩
  · have hleaf := hdrift.2 _ kind (Layout.kind?_of_descend hkind)
    have hkind' : s'.schema.resolve q = .ok (.scalar kind) := hsame ▸ hkind
    simp only [holds_iff hs hfit₀ hkind, lacks_iff hs hfit₀ hkind, holds_iff hs' hfit hkind',
      lacks_iff hs' hfit hkind', hsame]
    generalize (s.schema.part.value s.session.file).at? _ = old at hleaf ⊢
    generalize (s.schema.part.value s'.session.file).at? _ = now at hleaf ⊢
    change kind.Drifts (layout.suppliedAt? (path.steps.map UInt64.toNat) v
      (q.steps.map UInt64.toNat)) old now at hleaf
    generalize layout.suppliedAt? (path.steps.map UInt64.toNat) v (q.steps.map UInt64.toNat) = new
      at hleaf ⊢
    cases new with
    | none =>
      rintro x rfl
      rcases hleaf with hsame | ⟨hnone, -⟩ | ⟨_, _, hnone, -⟩
      · exact hsame
      · cases hnone
      · cases hnone
    | some x =>
      rcases hleaf with rfl | ⟨hnone, hzero⟩ | ⟨x', y, hx, hy, hnow⟩
      · cases now with
        | none => exact .inl ⟨rfl, rfl⟩
        | some y => exact .inr ⟨y, rfl, .inl rfl⟩
      · exact .inr ⟨_, hzero, .inr (.inl ⟨hnone, rfl⟩)⟩
      · obtain rfl := Option.some.inj hx
        exact .inr ⟨y, hnow, .inr (.inr hy)⟩
  · have hplan' : s'.schema.plan address v = .ok (path, layout, image) := hsame ▸ hplan
    obtain ⟨s₁, t₁, hset₁, hget₁⟩ := get_of_set hs.onFile trivial hplan hfit₁
    obtain ⟨s₂, t₂, hset₂, hget₂⟩ := get_of_set hs'.onFile trivial hplan' hfit₂
    have hroot : s'.schema.rootLayout.update (layout.overlay v) path.steps
        (s'.schema.part.value s'.session.file) = s.schema.rootLayout.update (layout.overlay v)
          path.steps (s.schema.part.value s.session.file) := hsame ▸ hdrift.1
    exact ⟨_, s₁, t₁, s₂, t₂, hset₁, hget₁, hset₂, hget₂.trans (hroot ▸ rfl)⟩

theorem set_interrupted_log : ∃ e s' root s₁ t₁ s₂ t₂,
    set (.path ⟨[1, 3]⟩) (.uint 7) flakyLog = .error e s' ∧
    (∃ report t, audit s'.onFile = .ok report t ∧ report.isClean = true) ∧
    s'.Holds ⟨[0]⟩ (.uint 0) ∧
    set (.path ⟨[1, 3]⟩) (.uint 7) flakyLog.onFile = .ok () s₁ ∧ get (.dotted "") s₁ = .ok root t₁ ∧
    set (.path ⟨[1, 3]⟩) (.uint 7) s'.onFile = .ok () s₂ ∧ get (.dotted "") s₂ = .ok root t₂ := by
  have hplan : Schema.log.plan (.path ⟨[1, 3]⟩) (.uint 7) =
      .ok (⟨[1, 3]⟩, .scalar .uint8, .run ⟨#[7]⟩) := rfl
  have herror : WP (set (.path ⟨[1, 3]⟩) (.uint 7)) flakyLog (fun _ _ => False)
      fun _ s' => s'.session.Fits ∧
        (endState (set (.path ⟨[1, 3]⟩) (.uint 7)) s'.onFile).session.Fits := by decide +kernel
  have hheld : flakyLog.Holds ⟨[0]⟩ (.uint 0) := ⟨_, rfl⟩
  cases hset : set (.path ⟨[1, 3]⟩) (.uint 7) flakyLog with
  | ok _ s' => exact (herror.ok hset).elim
  | error e s' =>
    obtain ⟨hfit, hfit'⟩ := herror.error hset
    obtain ⟨hclean, hleaves, hretry⟩ :=
      set_interrupted Schema.log_compiled reached_flakyLog hplan hset hfit
    obtain ⟨root, s₁, t₁, s₂, t₂, h⟩ := hretry (by decide +kernel) hfit'
    exact ⟨e, s', root, s₁, t₁, s₂, t₂, rfl, hclean, hleaves ⟨[0]⟩ .uint8 rfl _ hheld, h⟩

end Store

end RecordFile
