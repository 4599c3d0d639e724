import RecordFile.Proofs.Walk.Blank
import RecordFile.Proofs.Walk.Reading

/-!
# Walks with and without growth

A walk that may make chains longer is the walk that may not, as long as that one does not run past
the end of a chain: it makes the same calls and ends with the same result, or for the same reason
(`foretells_traceFrom`). This holds on every device.

Where a walk runs past the end of a chain, the steps lead to the chain, and the next one of them
asks for an element behind its last block (`Layout.Overrun`, `Layout.exists_overrun`). Growing then
appends just what `ArrayLayout.growth` says (`wp_traceFrom_growth`).
-/

namespace RecordFile

open Session

/-- The second action ends just as the first one does, unless an array is too short for that one. -/
def Foretells {σ α : Type} (m m' : Action σ α) : Prop :=
  ∀ s, WP m s (fun a s' => m' s = .ok a s') fun e s' => e.IsOutOfRange ∨ m' s = .error e s'

namespace Foretells

variable {σ α β : Type}

theorem refl (m : Action σ α) : Foretells m m := fun s => (WP.self m s).mono (fun _ _ h => h)
  fun _ _ h => .inr h

theorem bind {m m' : Action σ β} {f f' : β → Action σ α} (h : Foretells m m')
    (hf : ∀ b, Foretells (f b) (f' b)) : Foretells (m >>= f) (m' >>= f') := by
  intro s
  rw [WP.bind_iff]
  refine (h s).mono (fun b s₁ hb => ?_) fun e s' he => he.imp_right bind_error
  exact (hf b s₁).mono (fun a s' ha => (bind_ok hb).trans ha) fun e s' he =>
    he.imp_right (bind_ok hb).trans

end Foretells

section

variable {δ : Type} [Device δ] {rootSize : Nat}

namespace Chain

theorem foretells_locateFrom (a : ArrayLayout) (index block remaining allocated : Nat) :
    Foretells (locateFrom (δ := δ) rootSize .forbidden a index block remaining allocated)
      (locateFrom rootSize .allowed a index block remaining allocated) := by
  induction remaining using Nat.strongRecOn generalizing block allocated with
  | ind remaining ih =>
    have hpos := a.capacity_pos
    rw [locateFrom, locateFrom]
    split
    · simp only [next, followOrExtend, bind_assoc, pure_bind]
      refine .bind (.refl _) fun found => ?_
      cases found with
      | none => exact fun s => .inl ⟨_, _, rfl⟩
      | some next => exact ih _ (by omega) next _
    · exact .refl _

theorem foretells_locate (a : ArrayLayout) (start index : Nat) :
    Foretells (locate (δ := δ) rootSize .forbidden a start index)
      (locate rootSize .allowed a start index) := by
  rw [locate, locate]
  cases a.extent with
  | fixed => exact .refl _
  | chained => exact foretells_locateFrom a index start index a.capacity

end Chain

/-- A walk with growth does what the walk without does, unless a chain is too short for that one. -/
theorem foretells_traceFrom (path : Path) (position : Nat) (l : Layout) (offset : Nat)
    (steps : List UInt64) : Foretells
      (traceFrom (δ := δ) rootSize .forbidden path position l offset steps)
      (traceFrom rootSize .allowed path position l offset steps) := by
  induction steps generalizing position l offset with
  | nil =>
    rw [traceFrom, traceFrom]
    exact .refl _
  | cons step rest ih =>
    cases l with
    | scalar kind =>
      rw [traceFrom, traceFrom]
      exact .refl _
    | record r =>
      rw [traceFrom, traceFrom]
      cases r.fields[step.toNat]? with
      | none => exact .refl _
      | some f => exact .bind (.refl _) fun start => ih (position + 1) f.layout start
    | array a =>
      rw [traceFrom, traceFrom]
      exact .bind (Chain.foretells_locate a offset step.toNat) fun start =>
        ih (position + 1) a.element start

end

/-! ## The end of a chain -/

section

variable {rootSize : Nat} {f : File}

/-- Where steps from a place run past the end of a chain. -/
structure Layout.Overrun (rootSize : Nat) (f : File) (l : Layout) (offset : Nat)
    (steps : List UInt64) where
  /-- The steps that lead to the array. -/
  before : List UInt64
  /-- The step that asks for an element behind the last block. -/
  step : UInt64
  below : List UInt64
  array : ArrayLayout
  start : Nat
  /-- The last block. -/
  last : Nat
  steps_eq : steps = before ++ step :: below
  placeAt_eq : l.placeAt rootSize f offset before = some (.array array, start)
  chained : array.extent = .chained
  getLast?_eq : (f.chain rootSize array start).getLast? = some last
  length_le : (f.chain rootSize array start).length * array.capacity ≤ step.toNat

namespace Layout.Overrun

variable {l : Layout} {offset : Nat} {steps : List UInt64}

/-- The number of blocks of the chain. -/
def blocks (o : l.Overrun rootSize f offset steps) : Nat :=
  (f.chain rootSize o.array o.start).length

/-- The extensions that are missing. -/
def growth (o : l.Overrun rootSize f offset steps) : List Extension :=
  o.array.growth o.last f.size o.blocks o.step.toNat o.below

/-- Behind one step more. -/
def cons {p : Layout × Nat} {step : UInt64}
    (hp : (l.children rootSize f offset)[step.toNat]? = some p)
    (o : p.1.Overrun rootSize f p.2 steps) : l.Overrun rootSize f offset (step :: steps) where
  before := step :: o.before
  step := o.step
  below := o.below
  array := o.array
  start := o.start
  last := o.last
  steps_eq := congrArg (step :: ·) o.steps_eq
  placeAt_eq := placeAt_cons_eq_some.mpr ⟨p, hp, o.placeAt_eq⟩
  chained := o.chained
  getLast?_eq := o.getLast?_eq
  length_le := o.length_le

end Layout.Overrun

/-- Steps that a type allows lead somewhere, unless they run past the end of a chain. -/
theorem Layout.exists_overrun {path : Path} {position offset : Nat} {l l' : Layout}
    {steps : List UInt64} (hdescend : l.descend path position steps = .ok l')
    (hnone : l.placeAt rootSize f offset steps = none) :
    ∃ o : l.Overrun rootSize f offset steps,
      (l.value rootSize f offset).overrun? (steps.map UInt64.toNat) =
        some (o.step.toNat, o.blocks * o.array.capacity) := by
  induction steps generalizing position offset l with
  | nil => cases hnone
  | cons step rest ih =>
    obtain ⟨below, hchild, hdescend⟩ := descend_cons.mp hdescend
    -- Once the place below is known, the steps run past a chain there.
    have hbelow : ∀ p, (l.children rootSize f offset)[step.toNat]? = some p → p.1 = below →
        ∃ o : l.Overrun rootSize f offset (step :: rest),
          (l.value rootSize f offset).overrun? ((step :: rest).map UInt64.toNat) =
            some (o.step.toNat, o.blocks * o.array.capacity) := by
      rintro p hp rfl
      rw [placeAt, hp] at hnone
      obtain ⟨o, ho⟩ := ih hdescend hnone
      exact ⟨.cons hp o, by rwa [List.map_cons, overrun?_of_child hp]⟩
    cases l with
    | scalar kind => exact absurd hchild child_scalar
    | record r =>
      obtain ⟨field, hfield, rfl⟩ := child_record_eq_ok_iff.mp hchild
      exact hbelow _ (children_record_of_some hfield offset) rfl
    | array a =>
      obtain ⟨hindex, rfl⟩ := child_array_eq_ok_iff.mp hchild
      cases hp : ((array a).children rootSize f offset)[step.toNat]? with
      | some p => exact hbelow p hp (layout_of_mem_children (List.mem_of_getElem? hp))
      | none =>
        have hle := List.getElem?_eq_none_iff.mp hp
        have hext : a.extent = .chained := by
          cases hext : a.extent with
          | chained => rfl
          | fixed =>
            rw [children_array_of_none (File.next?_of_fixed hext), ArrayLayout.length_places] at hle
            exact absurd ⟨hext, hle⟩ hindex
        have hoverrun := ArrayLayout.overrun?_of_le hle (rest.map UInt64.toNat)
        rw [ArrayLayout.length_children] at hle hoverrun
        have hlast := List.getLast?_eq_some_getLast
          (List.ne_nil_of_mem (f.mem_chain_self rootSize a offset))
        exact ⟨⟨[], step, rest, a, offset, _, rfl, rfl, hext, hlast, hle⟩, hoverrun⟩

end

/-! ## Growing -/

section

variable {δ : Type} [Device δ] [LawfulDevice δ] {rootSize : Nat} {s : Session δ}

/-- A walk to an element behind the last block of a chain makes the chain longer up to it, and then
makes room for what the steps lead to below it. -/
theorem wp_traceFrom_growth (hinf : LawfulDevice.infallible δ) {path : Path}
    {position start last : Nat} {a : ArrayLayout} {l' : Layout} {step : UInt64}
    {below : List UInt64} (hw : (Layout.array a).WellFormed) (hext : a.extent = .chained)
    (hdescend : a.element.descend path (position + 1) below = .ok l') (hfit : s.Fits)
    (hle : start + a.size ≤ s.file.size)
    (hlast : (s.file.chain rootSize a start).getLast? = some last)
    (hzero : s.file.link a last = 0)
    (hindex : (s.file.chain rootSize a start).length * a.capacity ≤ step.toNat) :
    WP (traceFrom rootSize .allowed path position (.array a) start (step :: below)) s
      (fun _ s' => Extended (a.growth last s.file.size (s.file.chain rootSize a start).length
        step.toNat below) (a.linkOffset last) linkSize s s')
      (Overflows (a.growth last s.file.size (s.file.chain rootSize a start).length step.toNat below)
        s) := by
  obtain ⟨own, he⟩ := hw.of_array
  have hin : last + a.size ≤ s.file.size :=
    ArrayLayout.block_le hle last (List.mem_of_getLast? hlast)
  have hpos := a.capacity_pos
  -- The walk gets past `j` blocks to the last one.
  obtain ⟨j, hj⟩ : ∃ j, (s.file.chain rootSize a start).length = j + 1 :=
    Nat.exists_eq_add_one.mpr (List.length_pos_of_mem (s.file.mem_chain_self rootSize a start))
  have hblock : (s.file.chain rootSize a start)[j]? = some last := by
    rw [← hlast, List.getLast?_eq_getElem?, hj, Nat.add_sub_cancel]
  rw [hj] at hindex ⊢
  obtain ⟨remaining, hremaining⟩ : ∃ remaining, step.toNat = j * a.capacity + remaining :=
    Nat.exists_eq_add_of_le (Nat.le_trans (Nat.mul_le_mul_right _ (Nat.le_succ j)) hindex)
  have hcap : a.capacity ≤ remaining := by
    rw [Nat.add_mul, Nat.one_mul] at hindex
    omega
  have hcount : step.toNat / a.capacity + 1 - (j + 1) = remaining / a.capacity := by
    rw [hremaining, Nat.mul_comm, Nat.mul_add_div hpos, Nat.add_sub_add_right,
      Nat.add_sub_cancel_left]
  have hslot : step.toNat % a.capacity = remaining % a.capacity := by
    rw [hremaining, Nat.mul_add_mod_self_right]
  have hlocate : WP (Chain.locate rootSize .allowed a start step.toNat) s
      (Reserved a last (remaining / a.capacity) (remaining % a.capacity) (a.linkOffset last)
        linkSize s)
      (Overflows (a.extensions last s.file.size (remaining / a.capacity)) s) := by
    rw [Chain.locate, hext, hremaining]
    refine Chain.wp_locateFrom_skip hinf own hfit hle hblock fun s₁ allocated hsame => ?_
    have hfile := hsame.file_eq
    exact (Chain.wp_locateFrom_unlinked hinf own hext (hfile ▸ hin) (hfile ▸ hzero) _ (.inl hcap)
      allocated).mono (fun _ _ h => h.of_alike hsame.alike) fun _ _ h =>
        hfile ▸ h.of_alike hsame.alike
  unfold ArrayLayout.growth
  simp only [hcount, hslot]
  rw [traceFrom, WP.bind_iff]
  refine hlocate.mono (fun offset s₁ h => ?_) fun _ _ h => h.append _
  rw [h.extensions_eq below]
  refine (wp_traceFrom_blank hinf he hdescend h.blank h.inside).mono
    (fun _ s' h' => h.trans h'.1 (.inr ?_)) fun _ _ h' => h'.after h.extended
  rw [h.offset_eq]
  exact Nat.le_trans (a.le_lastBlock last s.file.size (Nat.div_pos hcap hpos)) (Nat.le_add_right ..)

end

end RecordFile
