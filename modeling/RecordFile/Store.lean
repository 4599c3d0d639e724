import RecordFile.Store.Audit
import RecordFile.Store.Read
import RecordFile.Store.Trace
import RecordFile.Store.Write

/-!
# Stores

A store is a schema and a session on a device that holds a file of that schema: the root record
first, then the blocks that chained arrays have been extended by.

- `Store.create` starts with a file of zeros, and `Store.openOn` takes the file as it is; it only
  has to be long enough for the root record.
- `Store.get` and `Store.set` read and write a part by its path. A path or a value that does not fit
  is refused before the device is touched.
- `Store.trace` gives the offset of a part. It makes chains longer if growth is allowed.
- `Store.audit` checks all chains.

An operation that halts leaves what it has done up to that point in place.
-/

namespace RecordFile

/-- A device that holds a file of a schema. -/
structure Store (δ : Type) where
  schema : Schema
  session : Session δ

/-- What a store has done and how long its file is. -/
structure Stats where
  counters : Counters
  fileSize : Nat
  deriving DecidableEq, Repr

/-- An action run apart from its caller: if it breaks off, the caller gets an error. -/
def apart {σ α : Type} (action : Action σ α) : Action σ α := fun s =>
  match action s with
  | .error .abort s => .error (.error .taskFailed) s
  | result => result

namespace Store

variable {δ : Type}

/-- Runs an action on the session. -/
def onSession {α : Type} (action : Schema → Action (Session δ) α) : Action (Store δ) α :=
  fun ⟨schema, session⟩ =>
    match action schema session with
    | .ok a session => .ok a ⟨schema, session⟩
    | .error e session => .error e ⟨schema, session⟩

/-- A call on the device that goes around the store and is not counted. -/
def onDevice {α : Type} (action : Action δ α) : Action (Store δ) α :=
  onSession fun _ => Session.call action

/-- Changes the device from outside. -/
def changeDevice (change : δ → δ) (s : Store δ) : Store δ :=
  ⟨s.schema, ⟨change s.session.device, s.session.counters⟩⟩

variable [Device δ]

/-- A store on a device whose contents are dropped. -/
def create (schema : Schema) (device : δ) : Except Halt (Store δ) :=
  match Device.reset schema.size device with
  | .ok _ device => .ok ⟨schema, ⟨device, {}⟩⟩
  | .error e _ => .error e

/-- A store on the contents of a device. -/
def openOn (schema : Schema) (device : δ) : Except Halt (Store δ) :=
  match Device.size device with
  | .ok fileSize device =>
    if fileSize < schema.size then
      .error (.error (.corrupted (.shortFile fileSize schema.root.name schema.size)))
    else .ok ⟨schema, ⟨device, {}⟩⟩
  | .error e _ => .error e

/-- Makes the root record zero and drops all blocks behind it. -/
def init : Action (Store δ) Unit :=
  onSession fun schema => Session.call (Device.reset schema.size)

/-- Reads the part at an address. -/
def get (address : Address) : Action (Store δ) Value :=
  onSession fun schema => do
    let path ← ofExcept (schema.path address)
    let layout ← ofExcept (schema.resolve path)
    let offset ← tracePath schema .forbidden path
    readValue schema.size layout offset

/-- Writes a value to the part at an address, extending chains to hold it. -/
def set (address : Address) (v : Value) : Action (Store δ) Unit :=
  onSession fun schema => do
    let path ← ofExcept (schema.path address)
    let layout ← ofExcept (schema.resolve path)
    let image ← ofExcept (layout.image v)
    let offset ← tracePath schema .allowed path
    writeImage schema.size layout offset image
    if schema.config.syncOnWrite then Session.call Device.sync

/-- The offset of the part at an address. -/
def trace (growth : Growth) (address : Address) : Action (Store δ) Nat :=
  onSession fun schema => do
    let path ← ofExcept (schema.path address)
    tracePath schema growth path

/-- The size of the file. -/
def size : Action (Store δ) Nat := onSession fun _ => Session.size

/-- Makes all writes durable. -/
def sync : Action (Store δ) Unit := onDevice Device.sync

/-- The counters and the size of the file. -/
def stats : Action (Store δ) Stats :=
  onSession fun _ => do
    let counters := (← MonadState.get).counters
    return ⟨counters, ← Session.size⟩

/-- Checks all chains, in a program built for this overflow. What that reads is not counted. -/
def auditWith (overflow : Overflow) : Action (Store δ) Report :=
  onSession fun schema ⟨device, counters⟩ =>
    match Audit.run overflow schema ⟨device, {}⟩ with
    | .ok report session => .ok report ⟨session.device, counters⟩
    | .error e session => .error e ⟨session.device, counters⟩

/-- Checks all chains. Sums that are not words wrap around. -/
def audit : Action (Store δ) Report := auditWith .wraps

end Store

end RecordFile
