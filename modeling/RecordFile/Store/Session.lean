import RecordFile.Device

/-!
# Sessions

A session is a device together with counters of what has been done on it. Reads and writes count
the bytes that they move, once they have succeeded; a call that the device refuses leaves the
counters alone.
-/

namespace RecordFile

/-- What has been done since the session began. The counters are numbers, not words: a session in
which more is counted than a word can hold is not followed to where its counters start over. -/
structure Counters where
  /-- Blocks appended to chains. -/
  chainExtensions : Nat := 0
  bytesRead : Nat := 0
  /-- Bytes overwritten and bytes of appended blocks. -/
  bytesWritten : Nat := 0
  deriving DecidableEq, Repr

/-- A device in use. -/
structure Session (δ : Type) where
  device : δ
  counters : Counters := {}

namespace Session

variable {δ : Type}

/-- A call on the device, not counted. -/
def call {α : Type} (action : Action δ α) : Action (Session δ) α := fun ⟨device, counters⟩ =>
  match action device with
  | .ok a device => .ok a ⟨device, counters⟩
  | .error e device => .error e ⟨device, counters⟩

/-- Changes the counters. -/
def count (change : Counters → Counters) : Action (Session δ) Unit :=
  modify fun ⟨device, counters⟩ => ⟨device, change counters⟩

variable [Device δ]

/-- Reads a range and counts its bytes. -/
def read (offset length : Nat) : Action (Session δ) ByteArray := do
  let bytes ← call (Device.read offset length)
  count fun c => { c with bytesRead := c.bytesRead + length }
  return bytes

/-- Overwrites a range and counts its bytes. -/
def write (offset : Nat) (data : ByteArray) : Action (Session δ) Unit := do
  call (Device.write offset data)
  count fun c => { c with bytesWritten := c.bytesWritten + data.size }

/-- The size of the device's contents. -/
def size : Action (Session δ) Nat := call Device.size

end Session

end RecordFile
