import RecordFile.Bytes
import RecordFile.Error

/-!
# Devices

A store keeps its bytes on a device, which answers six calls: it reads a range, overwrites a range,
appends, resets to a run of zeros, tells its size and flushes. Only appending makes it longer.
`File` is the device that is nothing but its bytes; it refuses a range that is not inside it, and
every other call succeeds.

`Device` is what stores are written against. A device may refuse any call or break off in it, which
shows as a `Halt`; what it holds afterwards is its own business.
-/

namespace RecordFile

/-- The calls a device answers. -/
inductive Call where
  | read
  | write
  | append
  | reset
  | size
  | sync
  deriving DecidableEq, Repr

/-- A computation on a state that ends with a result or halts; the state is kept either way. -/
abbrev Action (σ : Type) := EStateM Halt σ

/-- Fails with an error. -/
def fail {σ α : Type} (e : Error) : Action σ α := throw (.error e)

/-- Breaks off without an error. -/
def abort {σ α : Type} : Action σ α := throw .abort

/-- The result of a pure check. -/
def ofExcept {σ α : Type} : Except Error α → Action σ α
  | .ok a => pure a
  | .error e => fail e

/-- A result that has to be there for the computation to go on. -/
def orAbort {σ α : Type} : Option α → Action σ α
  | some a => pure a
  | none => abort

/-- Where the bytes of a store are kept. -/
class Device (δ : Type) where
  /-- The `length` bytes from `offset` on. -/
  read : (offset length : Nat) → Action δ ByteArray
  /-- Puts `data` in place of the bytes from `offset` on. -/
  write : (offset : Nat) → (data : ByteArray) → Action δ Unit
  /-- Puts `data` at the end and tells where it starts. -/
  append : (data : ByteArray) → Action δ Nat
  /-- Drops all bytes and starts over with `size` zero bytes. -/
  reset : (size : Nat) → Action δ Unit
  /-- The number of bytes. -/
  size : Action δ Nat
  /-- Makes everything durable. -/
  sync : Action δ Unit

/-- A string of bytes that can be overwritten and that grows at its end. -/
structure File where
  bytes : ByteArray

namespace File

def empty : File := ⟨ByteArray.empty⟩

def size (f : File) : Nat := f.bytes.size

/-- The greatest length where lengths are signed 64-bit numbers. -/
def maxLength : Nat := 0x7fffffffffffffff

/-- A file of zero bytes. -/
def zeroed (size : Nat) : File := ⟨zeros size⟩

/-- The file cut to the given size, or filled with zero bytes up to it. -/
def resize (f : File) (size : Nat) : File :=
  ⟨f.bytes.extract 0 size ++ zeros (size - f.size)⟩

def read (offset length : Nat) : Action File ByteArray := do
  let f ← get
  match slice? f.bytes offset length with
  | some bytes => pure bytes
  | none => fail (.shortRead offset length f.size)

def write (offset : Nat) (data : ByteArray) : Action File Unit := fun ⟨bytes⟩ =>
  if offset + data.size ≤ bytes.size then .ok () ⟨overwrite bytes offset data⟩
  else .error (.error (.writeOutOfBounds offset data.size bytes.size)) ⟨bytes⟩

def append (data : ByteArray) : Action File Nat := fun ⟨bytes⟩ =>
  let offset := bytes.size
  .ok offset ⟨bytes ++ data⟩

instance : Device File where
  read := read
  write := write
  append := append
  reset size := set (zeroed size)
  size := do return (← get).size
  sync := pure ()

/-- The maximal runs of bytes other than zero from position `i` on, each with its offset. The bytes
of a run that reaches up to `i` are given in `open?`. -/
def runsFrom (f : File) (open? : Option (Nat × ByteArray)) (i : Nat) : List (Nat × ByteArray) :=
  if h : i < f.bytes.size then
    let b := f.bytes[i]
    match open? with
    | some (start, bytes) =>
      if b = 0 then (start, bytes) :: runsFrom f none (i + 1)
      else runsFrom f (some (start, bytes.push b)) (i + 1)
    | none =>
      if b = 0 then runsFrom f none (i + 1)
      else runsFrom f (some (i, ByteArray.empty.push b)) (i + 1)
  else open?.toList
termination_by f.bytes.size - i

/-- The maximal runs of bytes other than zero, each with its offset. -/
def runs (f : File) : List (Nat × ByteArray) := f.runsFrom none 0

end File

end RecordFile
