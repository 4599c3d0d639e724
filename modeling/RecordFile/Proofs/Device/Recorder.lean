import RecordFile.Proofs.Device.Session

/-!
# A device that records where it is read

A `Recorder` is a file that remembers at which offsets it was read. As it answers every call as the
file does, it is lawful and fails only calls that are out of bounds; what it remembers of a run tells
what a walk looked at.
-/

namespace RecordFile

/-- A file with the offsets at which it was read. -/
structure Recorder where
  file : File
  /-- Of the reads that went through, in their order. -/
  reads : List Nat := []

namespace Recorder

/-- Makes a call on the file. -/
def onFile {α : Type} (action : Action File α) : Action Recorder α := fun ⟨file, reads⟩ =>
  match action file with
  | .ok a file => .ok a ⟨file, reads⟩
  | .error e file => .error e ⟨file, reads⟩

/-- Remembers a read. -/
def record (offset : Nat) : Action Recorder Unit :=
  modify fun ⟨file, reads⟩ => ⟨file, reads ++ [offset]⟩

instance : Device Recorder where
  read offset length := do
    let bytes ← onFile (Device.read offset length)
    record offset
    return bytes
  write offset data := onFile (Device.write offset data)
  append data := onFile (Device.append data)
  reset size := onFile (Device.reset size)
  size := onFile Device.size
  sync := onFile Device.sync

theorem wp_onFile_iff {α : Type} {action : Action File α} {d : Recorder}
    {Q : α → Recorder → Prop} {E : Halt → Recorder → Prop} :
    WP (onFile action) d Q E ↔
      WP action d.file (fun a f => Q a ⟨f, d.reads⟩) fun e f => E e ⟨f, d.reads⟩ := by
  obtain ⟨file, reads⟩ := d
  simp only [WP, onFile]
  cases action file <;> rfl

/-- A read that goes through is remembered. -/
theorem wp_read (d : Recorder) (offset length : Nat) : WP (Device.read offset length) d
    (fun bytes d' => d'.file = d.file ∧ d'.reads = d.reads ++ [offset] ∧
      slice? d.file.bytes offset length = some bytes)
    (fun _ d' => d'.file = d.file ∧ d.file.size < offset + length) := by
  show WP (onFile (Device.read offset length) >>= _) d _ _
  rw [WP.bind_iff, wp_onFile_iff]
  exact (d.file.wp_read offset length).mono (fun _ _ h => ⟨h.1, rfl, h.2⟩) fun _ _ h => h

theorem wp_size (d : Recorder) : WP Device.size d
    (fun size d' => size = d.file.size ∧ d' = d) fun _ _ => False :=
  wp_onFile_iff.mpr ⟨rfl, rfl⟩

instance : LawfulDevice Recorder where
  file := file
  history _ := none
  infallible := True
  wp_read d offset length := (d.wp_read offset length).mono
    (fun _ _ h => ⟨h.1, rfl, h.2.2⟩) fun _ _ h => ⟨h.1, rfl, fun _ => h.2⟩
  wp_write d offset data := wp_onFile_iff.mpr (LawfulDevice.wp_write d.file offset data)
  wp_append d data := wp_onFile_iff.mpr (LawfulDevice.wp_append d.file data)
  wp_reset d size := wp_onFile_iff.mpr (LawfulDevice.wp_reset d.file size)
  wp_size d := wp_onFile_iff.mpr (LawfulDevice.wp_size d.file)
  wp_sync d := wp_onFile_iff.mpr (LawfulDevice.wp_sync d.file)

end Recorder

end RecordFile
