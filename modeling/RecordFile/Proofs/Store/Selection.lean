import RecordFile.Proofs.Store.Agreement
import RecordFile.Proofs.Walk.Standing

/-!
# Reading a part

Reading a part of what has been read gives what was read of it: whatever the file holds, once an
address can be read, reading any address below it selects in the value (`Store.get_part`). If an array
in the value has not so many elements, the error tells the index and how many elements there are.

Reading an address finds the place that its path leads to and gives the value of that place, whose links
are then all in order (`Store.placeAt_of_get`). From there the walk to a part below goes on, through
cells that are in order.
-/

namespace RecordFile

open Session

namespace Store

variable {δ : Type} [Device δ] [LawfulDevice δ] {s s₁ : Store δ}

/-- What can be read is the value of the place that the path leads to, and all its cells are in order. -/
theorem placeAt_of_get (hw : s.schema.rootLayout.WellFormed)
    (hle : s.schema.size ≤ s.session.file.size) (hfit : s.session.Fits) {p : Address} {path : Path}
    {v : Value} (hp : s.schema.path p = .ok path) (hget : get p s = .ok v s₁) :
    ∃ place, s.schema.rootLayout.placeAt s.schema.size s.session.file 0 path.steps = some place ∧
      v = place.1.value s.schema.size s.session.file place.2 ∧
      ∀ c ∈ place.1.cells s.schema.size s.session.file place.2,
        c.Fits s.schema.size s.session.file := by
  have hroot : 0 + s.schema.rootLayout.size ≤ s.session.file.size :=
    (Nat.le_of_eq (Nat.zero_add _)).trans hle
  have hread : WP (get p) s
      (fun v _ => ∃ place,
        s.schema.rootLayout.placeAt s.schema.size s.session.file 0 path.steps = some place ∧
          v = place.1.value s.schema.size s.session.file place.2 ∧
          ∀ c ∈ place.1.cells s.schema.size s.session.file place.2,
            c.Fits s.schema.size s.session.file)
      fun _ _ => True := by
    rw [get, wp_onSession_iff, hp, ofExcept_ok_bind]
    cases hlayout : s.schema.resolve path with
    | error e => trivial
    | ok layout =>
      rw [ofExcept_ok_bind, WP.bind_iff]
      refine (reads_tracePath hw hfit hle path s.session (.refl _)).mono (fun offset t h => ?_)
        fun _ _ _ => trivial
      obtain ⟨hsame, layout', hplace⟩ := h
      obtain rfl := Except.ok.inj ((Schema.resolve_of_placeAt hplace).symm.trans hlayout)
      obtain ⟨hw', hend⟩ := Layout.placeAt_le hw hroot hplace
      refine (trails_readValue (R := fun _ => Same) hw' hfit hend t hsame).mono
        (fun v _ h => ⟨_, hplace, h.2⟩) fun _ _ _ => trivial
  exact hread.ok hget

/-- Reading below a place whose cells are in order selects in its value, or an array is too short. -/
theorem wp_get_below (hw : s.schema.rootLayout.WellFormed)
    (hle : s.schema.size ≤ s.session.file.size) (hinf : LawfulDevice.infallible δ)
    (hfit : s.session.Fits) {q : Address} {steps rest : List UInt64} {layout : Layout}
    {place : Layout × Nat} (hq : s.schema.path q = .ok ⟨steps ++ rest⟩)
    (hlayout : s.schema.resolve ⟨steps ++ rest⟩ = .ok layout)
    (hplace : s.schema.rootLayout.placeAt s.schema.size s.session.file 0 steps = some place)
    (hcells : ∀ c ∈ place.1.cells s.schema.size s.session.file place.2,
      c.Fits s.schema.size s.session.file) :
    WP (get q) s
      (fun part _ =>
        (place.1.value s.schema.size s.session.file place.2).overrun? (rest.map UInt64.toNat) = none ∧
        (place.1.value s.schema.size s.session.file place.2).at? (rest.map UInt64.toNat) = some part)
      fun e _ => ∃ index length,
        (place.1.value s.schema.size s.session.file place.2).overrun? (rest.map UInt64.toNat) =
          some (index, length) ∧ e = .error (.indexOutOfRange index length) := by
  have hroot : 0 + s.schema.rootLayout.size ≤ s.session.file.size :=
    (Nat.le_of_eq (Nat.zero_add _)).trans hle
  obtain ⟨hw', hend⟩ := Layout.placeAt_le hw hroot hplace
  have hbelow : place.1.descend ⟨steps ++ rest⟩ (0 + steps.length) rest = .ok layout :=
    (Layout.descend_append (Layout.descend_of_placeAt hplace)).symm.trans hlayout
  rw [get, wp_onSession_iff, hq, ofExcept_ok_bind, hlayout, ofExcept_ok_bind, WP.bind_iff, tracePath]
  refine wp_traceFrom_append hinf hw hfit hroot hplace fun t hsame => ?_
  refine (reads_traceFrom hw' hfit hend t hsame).mono (fun offset t' h => ?_) fun e t' h => ?_
  · obtain ⟨hsame', layout', hpart⟩ := h
    obtain rfl := Except.ok.inj ((Layout.descend_of_placeAt hpart).symm.trans hbelow)
    obtain ⟨hw'', hend'⟩ := Layout.placeAt_le hw' hend hpart
    refine (reads_readValue hw'' hfit hend' t' hsame').mono (fun part _ h => ?_) fun e _ h => ?_
    · refine ⟨Layout.overrun?_of_placeAt hpart, ?_⟩
      rw [Layout.value_at?, hpart, h.2]
      rfl
    · obtain ⟨-, c, hc, hnot⟩ := h.2 hinf
      exact absurd (hcells c (Layout.cells_of_placeAt hpart c hc)) hnot
  · rcases h.2 hinf with ⟨-, c, hc, hnot⟩ | ⟨-, -, hshort⟩
    · exact absurd (hcells c hc) hnot
    · exact hshort layout hbelow

/-- Whatever the file holds, as long as the root record fits into it and the device does not fail: what
can be read below an address that can be read is what its steps select in the value read there; and
if an array in that value is too short for them, the error tells the first index for which one is, and
the length of that array. -/
theorem get_part (hschema : s.schema.Compiled) (hle : s.schema.size ≤ s.session.file.size)
    (hinf : LawfulDevice.infallible δ) (hfit : s.session.Fits) {p q : Address} {path : Path}
    {rest : List UInt64} {layout : Layout} {v : Value} (hp : s.schema.path p = .ok path)
    (hget : get p s = .ok v s₁) (hq : s.schema.path q = .ok ⟨path.steps ++ rest⟩)
    (hlayout : s.schema.resolve ⟨path.steps ++ rest⟩ = .ok layout) :
    match v.overrun? (rest.map UInt64.toNat) with
    | none => ∃ part s₂, v.at? (rest.map UInt64.toNat) = some part ∧ get q s = .ok part s₂
    | some (index, length) =>
      ∃ s₂, get q s = .error (.error (.indexOutOfRange index length)) s₂ := by
  have hw := hschema.wellFormed
  obtain ⟨place, hplace, rfl, hcells⟩ := placeAt_of_get hw hle hfit hp hget
  have hpart := wp_get_below hw hle hinf hfit hq hlayout hplace hcells
  cases hok : get q s with
  | ok part s₂ =>
    obtain ⟨hnone, hat⟩ := hpart.ok hok
    rw [hnone]
    exact ⟨part, s₂, hat, rfl⟩
  | error e s₂ =>
    obtain ⟨index, length, hsome, rfl⟩ := hpart.error hok
    rw [hsome]
    exact ⟨s₂, rfl⟩

theorem get_part_log : ∃ v s₁, get (.path ⟨[1]⟩) chainedLog = .ok v s₁ ∧
    (∃ part s₂, v.at? [3] = some part ∧ get (.path ⟨[1, 3]⟩) chainedLog = .ok part s₂) ∧
    ∃ s₂, get (.path ⟨[1, 9]⟩) chainedLog = .error (.error (.indexOutOfRange 9 4)) s₂ := by
  have hle : chainedLog.schema.size ≤ chainedLog.session.file.size := by decide +kernel
  have hfit : chainedLog.session.Fits := by decide +kernel
  have hresolve : ∀ i : UInt64, chainedLog.schema.resolve ⟨[1, i]⟩ = .ok (.scalar .uint8) :=
    fun _ => rfl
  have hread : WP (get (.path ⟨[1]⟩)) chainedLog
      (fun v _ => v.overrun? [3] = none ∧ v.overrun? [9] = some (9, 4)) fun _ _ => False := by
    decide +kernel
  obtain ⟨v, s₁, hok, hshort, hlong⟩ := hread.exists_ok fun _ _ _ h => h
  have hpath : ∀ i : UInt64, chainedLog.schema.path (.path ⟨[1, i]⟩) = .ok ⟨[1] ++ [i]⟩ :=
    fun _ => rfl
  have hthird := get_part (s := chainedLog) Schema.log_compiled hle trivial hfit rfl hok (hpath 3)
    (hresolve 3)
  have hninth := get_part (s := chainedLog) Schema.log_compiled hle trivial hfit rfl hok (hpath 9)
    (hresolve 9)
  simp only [List.map_cons, List.map_nil, show (3 : UInt64).toNat = 3 from rfl,
    show (9 : UInt64).toNat = 9 from rfl, hshort, hlong] at hthird hninth
  exact ⟨v, s₁, hok, hthird, hninth⟩

end Store

end RecordFile
