import RecordFile.Proofs.Walk.Standing
import RecordFile.Proofs.Walk.Writing

/-!
# Writing runs instead of parts

Parts that lie side by side and are runs themselves are merged to one run. On a device that does not
fail it makes no difference whether that run is written or the parts, one by one (`endsAs_run`). So
writing the image of a record or of a block ends as writing its parts does (`endsAs_record`,
`endsAs_block`), whatever became of them.
-/

namespace RecordFile

open Session

variable {δ : Type} [Device δ] [LawfulDevice δ] {rootSize : Nat} {s : Session δ}

/-- `n`, started in `s`, halts as `m` does, or both succeed and leave what is alike. -/
def EndsAs (m n : Action (Session δ) Unit) (s : Session δ) : Prop :=
  WP m s (fun _ s₁ => WP n s (fun _ s₂ => Alike s₁ s₂) fun _ _ => False)
    fun e s₁ => n s = .error e s₁

namespace EndsAs

theorem refl (m : Action (Session δ) Unit) (s : Session δ) : EndsAs m m s := by
  unfold EndsAs WP
  cases m s with
  | ok _ s₁ => exact ⟨rfl, rfl⟩
  | error e s₁ => rfl

/-- What is said of files and counts of extensions holds of both. -/
theorem wp {m n : Action (Session δ) Unit} (h : EndsAs m n s) {Q : Session δ → Prop}
    {F : Halt → Session δ → Prop} (hm : WP m s (fun _ => Q) F) (hQ : ∀ t u, Alike t u → Q t → Q u) :
    WP n s (fun _ => Q) F := by
  cases hrun : m s with
  | ok _ s₁ =>
    have hq : Q s₁ := hm.ok hrun
    exact (h.ok hrun).mono (fun _ s₂ halike => hQ s₁ s₂ halike hq) fun _ _ h => h.elim
  | error e s₁ =>
    rw [WP, h.error hrun]
    exact hm.error hrun

end EndsAs

/-- Writing parts one by one does what writing the run does that they merge to. -/
theorem wp_writeRow_of_merge {E : Halt → Session δ → Prop} (hinf : LawfulDevice.infallible δ)
    {row : List (Layout × Nat)} {start stop : Nat} (hrow : RowPacked start row stop)
    {parts : List Image} {bytes : ByteArray}
    (hmerge : Image.merge? ((row.map (·.1.size)).zip parts) = some bytes)
    (hle : stop ≤ s.file.size) : WP (writeRow rootSize row parts) s
      (fun _ s' => s'.file = s.file.overwritten start bytes ∧
        s'.counters.chainExtensions = s.counters.chainExtensions) E := by
  induction row generalizing s start parts bytes with
  | nil =>
    obtain rfl := Image.merge?_nil hmerge
    rw [File.overwritten_empty]
    exact ⟨rfl, rfl⟩
  | cons p row ih =>
    obtain ⟨rfl, hrow⟩ := hrow
    obtain _ | ⟨part, parts⟩ := parts
    · rw [List.zip_nil_right] at hmerge
      obtain rfl := Image.merge?_nil hmerge
      rw [File.overwritten_empty]
      exact ⟨rfl, rfl⟩
    obtain ⟨first, more, rfl, hfirst, hmore, rfl⟩ := Image.merge?_cons hmerge
    replace hfirst : first.size = p.1.size := hfirst
    have hstop := hrow.le
    have hsize := Image.size_of_merge hrow hmore
    rw [writeRow, WP.bind_iff, writeImage]
    refine (wp_write s p.2 first).mono (fun _ s₁ h => ?_) fun _ s₁ h => ?_
    · obtain ⟨hfile, hcount, -, hin⟩ := h
      replace hfile : s₁.file = s.file.overwritten p.2 first := hfile
      have hsize₁ : s₁.file.size = s.file.size := by
        rw [hfile]
        exact size_overwrite hin
      refine (ih hrow hmore (hsize₁ ▸ hle)).mono (fun _ s' h => ⟨?_, h.2.trans hcount⟩) fun _ _ h => h
      rw [h.1, hfile, ← hfirst]
      exact File.overwritten_append (by omega)
    · exact absurd (h.2.2.2 hinf) (Nat.not_lt_of_le (by omega))

/-- Writing the run that parts merge to ends as writing them one by one does. -/
theorem endsAs_run (hinf : LawfulDevice.infallible δ) {row : List (Layout × Nat)} {start stop : Nat}
    (hrow : RowPacked start row stop) {parts : List Image} {bytes : ByteArray}
    (hmerge : Image.merge? ((row.map (·.1.size)).zip parts) = some bytes) (hle : stop ≤ s.file.size) :
    EndsAs (writeRow rootSize row parts) (Session.write start bytes) s := by
  have hin := Image.size_of_merge hrow hmerge
  refine (wp_writeRow_of_merge hinf hrow hmerge hle).mono (fun _ s₁ h₁ => ?_) fun _ _ h => h
  refine (wp_write s start bytes).mono (fun _ s' h => ?_) fun _ s' h => ?_
  · exact ⟨h.1.trans h₁.1.symm, h.2.1.trans h₁.2.symm⟩
  · exact Nat.not_lt_of_le (by omega) (h.2.2.2 hinf)

/-- Writing the image of a record ends as writing its parts one by one does. -/
theorem endsAs_record (hinf : LawfulDevice.infallible δ) {r : RecordLayout} (own : r.WellFormed)
    (hfit : s.Fits) {offset : Nat} (hle : offset + r.size ≤ s.file.size) (parts : List Image) :
    EndsAs (writeRow rootSize (r.places offset) parts)
      (writeImage rootSize (.record r) offset
        (match Image.merge? ((r.fields.map (·.layout.size)).zip parts) with
          | some bytes => .run bytes
          | none => .fields parts)) s := by
  split
  · rename_i hmerge
    rw [← r.map_places offset Layout.size] at hmerge
    rw [writeImage]
    exact endsAs_run hinf (own.places_packed offset) hmerge hle
  · simp only [writeImage]
    rw [own.writeFields_eq (Nat.lt_of_le_of_lt hle hfit)]
    exact .refl _ s

/-- Writing the image of elements to a block ends as writing them one by one does. -/
theorem endsAs_block (hinf : LawfulDevice.infallible δ) {a : ArrayLayout} (own : a.WellFormed)
    (hfit : s.Fits) {block : Nat} (hle : block + a.size ≤ s.file.size) {parts : List Image}
    (hlen : parts.length ≤ a.capacity) :
    EndsAs (writeRow rootSize (a.places block) parts)
      (writeImage rootSize (.array a) block (.ofSlots a.element.size parts)) s := by
  have hslots := own.slotsSize_le
  rcases Image.ofSlots_cases a.element.size parts with ⟨bytes, hrun⟩ | hslots
  · rw [hrun, writeImage]
    exact endsAs_run hinf (a.places_packed block) (Image.merge?_of_slots block hlen hrun) (by omega)
  · rw [hslots, writeImage, writeSlots_eq own (Nat.lt_of_le_of_lt hle hfit) (by omega),
      List.drop_zero]
    exact .refl _ s

end RecordFile
