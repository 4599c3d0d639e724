import RecordFile.Proofs.Device.Session

/-!
# A device that fails in any pattern

A `FlakyFile` is a file whose calls fail as `refusal` says, which is given the number of calls made
before: any call may fail for any reason, and a call that fails leaves the file alone. It remembers
the calls it was asked for.

It is lawful, so what is proved of stores holds for every pattern of failures.
-/

namespace RecordFile

/-- A file whose calls may fail. -/
structure FlakyFile where
  file : File
  /-- Why the call fails before which so many have been made, if it does. -/
  refusal : Nat → Option Halt
  /-- The calls so far, the latest one first. -/
  history : List Event := []

namespace FlakyFile

/-- Makes a call on the file, unless it is refused. -/
def attempt {α : Type} (call : Call) (bytes : Nat) (action : Action File α) : Action FlakyFile α :=
  fun ⟨file, refusal, history⟩ =>
    match refusal history.length with
    | some e => .error e ⟨file, refusal, ⟨call, bytes, false⟩ :: history⟩
    | none =>
      match action file with
      | .ok a file => .ok a ⟨file, refusal, ⟨call, bytes, true⟩ :: history⟩
      | .error e file => .error e ⟨file, refusal, ⟨call, bytes, false⟩ :: history⟩

instance : Device FlakyFile where
  read offset length := attempt .read length (Device.read offset length)
  write offset data := attempt .write data.size (Device.write offset data)
  append data := attempt .append data.size (Device.append data)
  reset size := attempt .reset size (Device.reset size)
  size := attempt .size 0 Device.size
  sync := attempt .sync 0 Device.sync

/-- A call does what it does on the file, or it fails and leaves the file alone. -/
theorem wp_attempt {α : Type} {call : Call} {bytes : Nat} {action : Action File α} {d : FlakyFile}
    {Q : α → File → Prop} (h : WP action d.file Q fun _ f => f = d.file) :
    WP (attempt call bytes action) d
      (fun a d' => Q a d'.file ∧ d'.history = ⟨call, bytes, true⟩ :: d.history)
      (fun _ d' => d'.file = d.file ∧ d'.history = ⟨call, bytes, false⟩ :: d.history) := by
  obtain ⟨file, refusal, history⟩ := d
  unfold WP attempt at *
  dsimp only at h ⊢
  cases refusal history.length with
  | some e => exact ⟨rfl, rfl⟩
  | none =>
    cases hrun : action file with
    | ok a f =>
      rw [hrun] at h
      exact ⟨h, rfl⟩
    | error e f =>
      rw [hrun] at h
      exact ⟨h, rfl⟩

instance : LawfulDevice FlakyFile where
  file := file
  history d := some d.history
  infallible := False
  wp_read d offset length :=
    (wp_attempt ((d.file.wp_read offset length).mono (fun _ _ h => h) fun _ _ h => h.1)).mono
      (fun _ _ h => ⟨h.1.1, congrArg some h.2, h.1.2⟩)
      (fun _ _ h => ⟨h.1, congrArg some h.2, False.elim⟩)
  wp_write d offset data :=
    (wp_attempt ((d.file.wp_write offset data).mono (fun _ _ h => h) fun _ _ h => h.1)).mono
      (fun _ _ h => ⟨h.1.1, congrArg some h.2, h.1.2⟩)
      (fun _ _ h => ⟨h.1, congrArg some h.2, False.elim⟩)
  wp_append d data :=
    (wp_attempt (LawfulDevice.wp_append d.file data |>.mono (fun _ _ h => h) fun _ _ h => h.1)).mono
      (fun _ _ h => ⟨h.1.1, h.1.2.1, congrArg some h.2⟩)
      (fun _ _ h => ⟨h.1, congrArg some h.2, id⟩)
  wp_reset d size :=
    (wp_attempt (LawfulDevice.wp_reset d.file size |>.mono (fun _ _ h => h) fun _ _ h => h.1)).mono
      (fun _ _ h => ⟨h.1.1, congrArg some h.2⟩) (fun _ _ h => ⟨h.1, congrArg some h.2, id⟩)
  wp_size d :=
    (wp_attempt (LawfulDevice.wp_size d.file |>.mono (fun _ _ h => h) fun _ _ h => h.1)).mono
      (fun _ _ h => ⟨h.1.1, h.1.2.1, congrArg some h.2⟩)
      (fun _ _ h => ⟨h.1, congrArg some h.2, id⟩)
  wp_sync d :=
    (wp_attempt (LawfulDevice.wp_sync d.file |>.mono (fun _ _ h => h) fun _ _ h => h.1)).mono
      (fun _ _ h => ⟨h.1.1, congrArg some h.2⟩) (fun _ _ h => ⟨h.1, congrArg some h.2, id⟩)

/-! ## Calls that are known to be refused or not -/

section

variable {d : FlakyFile} {c : Counters}

theorem read_of_slice? {offset length : Nat} {bytes : ByteArray}
    (hgo : d.refusal d.history.length = none)
    (hslice : slice? d.file.bytes offset length = some bytes) :
    Session.read offset length ⟨d, c⟩ = .ok bytes ⟨⟨d.file, d.refusal,
      ⟨.read, length, true⟩ :: d.history⟩, { c with bytesRead := c.bytesRead + length }⟩ := by
  have hread : File.read offset length d.file = .ok bytes d.file := by
    simp only [File.read, bind, EStateM.bind, get, getThe, MonadStateOf.get, EStateM.get, hslice]
    rfl
  have hcall : Session.call (Device.read offset length) ⟨d, c⟩ = .ok bytes
      ⟨⟨d.file, d.refusal, ⟨.read, length, true⟩ :: d.history⟩, c⟩ := by
    simp only [Session.call, Device.read, attempt, hgo, hread]
  exact bind_ok hcall

theorem append_of_none (data : ByteArray) (hgo : d.refusal d.history.length = none) :
    Session.call (Device.append data) ⟨d, c⟩ = .ok d.file.size ⟨⟨⟨d.file.bytes ++ data⟩, d.refusal,
      ⟨.append, data.size, true⟩ :: d.history⟩, c⟩ := by
  simp only [Session.call, Device.append, attempt, hgo]
  rfl

theorem append_of_some (data : ByteArray) {e : Halt}
    (hrefused : d.refusal d.history.length = some e) :
    Session.call (Device.append data) ⟨d, c⟩ = .error e ⟨⟨d.file, d.refusal,
      ⟨.append, data.size, false⟩ :: d.history⟩, c⟩ := by
  simp only [Session.call, Device.append, attempt, hrefused]

end

end FlakyFile

end RecordFile
