import RecordFile.Proofs.Action

/-!
# Lawful devices

What is proved of stores is proved for every device that keeps a file and either answers a call as
the file would or fails it and leaves the file alone. `LawfulDevice` states this call by call; a
plain `File` is lawful and fails only calls that are out of bounds.

A device may keep a history of the calls it was asked for. From it `Ledger.of` computes how many
bytes were appended in vain: bytes of a block that no link was written to, because a later call of
the extension failed.
-/

namespace RecordFile

/-- A call that a device was asked for. -/
structure Event where
  call : Call
  /-- How many bytes were to be moved. -/
  bytes : Nat
  /-- Whether the call went through. -/
  done : Bool
  deriving DecidableEq, Repr

/-- The bytes that were appended and not linked. -/
structure Ledger where
  /-- Since the last call that was not an append. -/
  pending : Nat := 0
  /-- By extensions that failed before their link was written. -/
  lost : Nat := 0
  deriving DecidableEq, Repr

namespace Ledger

/-- The ledger after one more call. An extension appends its block and then writes the link, so a
write settles what was appended before it, and a failure loses it. A reset drops everything. -/
def after (e : Event) (l : Ledger) : Ledger :=
  if e.done then
    match e.call with
    | .append => ⟨l.pending + e.bytes, l.lost⟩
    | .write => ⟨0, l.lost⟩
    | .reset => {}
    | .read | .size | .sync => l
  else ⟨0, l.lost + l.pending⟩

/-- The ledger of a history, the latest call first. -/
def of : (history : List Event) → Ledger
  | [] => {}
  | e :: earlier => (of earlier).after e

/-- A failed call loses nothing where nothing is pending. -/
theorem after_of_failed {e : Event} {k : Ledger} (he : e.done = false) (hk : k.pending = 0) :
    k.after e = k := by
  obtain ⟨pending, lost⟩ := k
  obtain rfl : pending = 0 := hk
  simp [after, he]

/-- Where no call failed, nothing is lost. -/
theorem lost_of_done {history : List Event} (h : ∀ e ∈ history, e.done = true) :
    (of history).lost = 0 := by
  induction history with
  | nil => rfl
  | cons e earlier ih =>
    obtain ⟨he, h⟩ := List.forall_mem_cons.mp h
    have := ih h
    simp only [of, after, he, if_true]
    cases e.call <;> simp_all

end Ledger

/-- A device that keeps a file. A call goes through as it would on the file, or it fails and the
file stays as it is. -/
class LawfulDevice (δ : Type) [Device δ] where
  file : δ → File
  /-- The calls so far, the latest one first, if the device remembers them. -/
  history : δ → Option (List Event)
  /-- Whether only calls that are out of bounds fail. -/
  infallible : Prop
  wp_read (d : δ) (offset length : Nat) : WP (Device.read offset length) d
    (fun bytes d' => file d' = file d ∧
      history d' = (history d).map (⟨.read, length, true⟩ :: ·) ∧
      slice? (file d).bytes offset length = some bytes)
    (fun _ d' => file d' = file d ∧
      history d' = (history d).map (⟨.read, length, false⟩ :: ·) ∧
      (infallible → (file d).size < offset + length))
  wp_write (d : δ) (offset : Nat) (data : ByteArray) : WP (Device.write offset data) d
    (fun _ d' => file d' = ⟨overwrite (file d).bytes offset data⟩ ∧
      history d' = (history d).map (⟨.write, data.size, true⟩ :: ·) ∧
      offset + data.size ≤ (file d).size)
    (fun _ d' => file d' = file d ∧
      history d' = (history d).map (⟨.write, data.size, false⟩ :: ·) ∧
      (infallible → (file d).size < offset + data.size))
  wp_append (d : δ) (data : ByteArray) : WP (Device.append data) d
    (fun offset d' => offset = (file d).size ∧ file d' = ⟨(file d).bytes ++ data⟩ ∧
      history d' = (history d).map (⟨.append, data.size, true⟩ :: ·))
    (fun _ d' => file d' = file d ∧
      history d' = (history d).map (⟨.append, data.size, false⟩ :: ·) ∧ ¬ infallible)
  wp_reset (d : δ) (size : Nat) : WP (Device.reset size) d
    (fun _ d' => file d' = .zeroed size ∧
      history d' = (history d).map (⟨.reset, size, true⟩ :: ·))
    (fun _ d' => file d' = file d ∧
      history d' = (history d).map (⟨.reset, size, false⟩ :: ·) ∧ ¬ infallible)
  wp_size (d : δ) : WP Device.size d
    (fun size d' => size = (file d).size ∧ file d' = file d ∧
      history d' = (history d).map (⟨.size, 0, true⟩ :: ·))
    (fun _ d' => file d' = file d ∧
      history d' = (history d).map (⟨.size, 0, false⟩ :: ·) ∧ ¬ infallible)
  wp_sync (d : δ) : WP Device.sync d
    (fun _ d' => file d' = file d ∧ history d' = (history d).map (⟨.sync, 0, true⟩ :: ·))
    (fun _ d' => file d' = file d ∧
      history d' = (history d).map (⟨.sync, 0, false⟩ :: ·) ∧ ¬ infallible)

namespace File

theorem wp_read (f : File) (offset length : Nat) : WP (Device.read offset length) f
    (fun bytes f' => f' = f ∧ slice? f.bytes offset length = some bytes)
    (fun _ f' => f' = f ∧ f.size < offset + length) := by
  show WP (File.read offset length) f _ _
  unfold WP File.read
  simp only [bind, EStateM.bind, get, getThe, MonadStateOf.get, EStateM.get]
  cases h : slice? f.bytes offset length with
  | some bytes => exact ⟨rfl, rfl⟩
  | none =>
    refine ⟨rfl, ?_⟩
    unfold slice? at h
    split at h
    · cases h
    · exact Nat.lt_of_not_le ‹_›

theorem wp_write (f : File) (offset : Nat) (data : ByteArray) : WP (Device.write offset data) f
    (fun _ f' => f' = ⟨overwrite f.bytes offset data⟩ ∧ offset + data.size ≤ f.size)
    (fun _ f' => f' = f ∧ f.size < offset + data.size) := by
  show WP (File.write offset data) f _ _
  unfold WP File.write
  by_cases h : offset + data.size ≤ f.bytes.size
  · simp only [h, if_true]
    exact ⟨trivial, h⟩
  · simp only [h, if_false]
    exact ⟨trivial, Nat.lt_of_not_le h⟩

instance : LawfulDevice File where
  file := id
  history _ := none
  infallible := True
  wp_read f offset length := (f.wp_read offset length).mono
    (fun _ _ h => ⟨h.1, rfl, h.2⟩) (fun _ _ h => ⟨h.1, rfl, fun _ => h.2⟩)
  wp_write f offset data := (f.wp_write offset data).mono
    (fun _ _ h => ⟨h.1, rfl, h.2⟩) (fun _ _ h => ⟨h.1, rfl, fun _ => h.2⟩)
  wp_append _ _ := ⟨rfl, rfl, rfl⟩
  wp_reset _ _ := ⟨rfl, rfl⟩
  wp_size _ := ⟨rfl, rfl, rfl⟩
  wp_sync _ := ⟨rfl, rfl⟩

end File

end RecordFile
