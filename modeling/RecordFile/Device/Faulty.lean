import RecordFile.Device

/-!
# A device that fails

A faulty file is a file whose calls can be armed, each kind of call by itself. An armed call goes
through a given number of times; after that it fails, before it has touched the file, until it is
armed anew or disarmed. It fails with an error or, if the file is set to break off, by breaking off.
A call that goes through counts even if the file itself refuses it.

A faulty file may also have a greatest length. A reset past it drops all bytes before it fails.

With nothing armed and no greatest length, a faulty file is a file.
-/

namespace RecordFile

/-- For each kind of call how many more of them go through, if the call is armed. -/
structure Fuses where
  read : Option Nat := none
  write : Option Nat := none
  append : Option Nat := none
  reset : Option Nat := none
  size : Option Nat := none
  sync : Option Nat := none
  deriving DecidableEq, Repr

namespace Fuses

/-- How many more calls of a kind go through. -/
def get (f : Fuses) : Call → Option Nat
  | .read => f.read
  | .write => f.write
  | .append => f.append
  | .reset => f.reset
  | .size => f.size
  | .sync => f.sync

/-- Arms or disarms a kind of call. -/
def set (f : Fuses) (call : Call) (left : Option Nat) : Fuses :=
  match call with
  | .read => { f with read := left }
  | .write => { f with write := left }
  | .append => { f with append := left }
  | .reset => { f with reset := left }
  | .size => { f with size := left }
  | .sync => { f with sync := left }

end Fuses

/-- A file whose calls can be made to fail. -/
structure FaultyFile where
  file : File
  fuses : Fuses := {}
  /-- Whether an armed call breaks off instead of failing. -/
  breaksOff : Bool := false
  /-- The greatest length the file can be given, if there is one. -/
  limit : Option Nat := none

namespace FaultyFile

/-- The name of a call in error messages. -/
def callName : Call → String
  | .read => "read"
  | .write => "write"
  | .append => "append"
  | .reset => "truncate"
  | .size => "size"
  | .sync => "sync"

/-- The error of an armed call. -/
def injected (call : Call) : Error := .device ("injected " ++ callName call ++ " fault")

/-- Makes a call on the file, unless it is armed and no more of its kind go through. -/
def guarded {α : Type} (call : Call) (action : Action File α) : Action FaultyFile α :=
  fun ⟨file, fuses, breaksOff, limit⟩ =>
    let run (fuses : Fuses) : EStateM.Result Halt FaultyFile α :=
      match action file with
      | .ok a file => .ok a ⟨file, fuses, breaksOff, limit⟩
      | .error e file => .error e ⟨file, fuses, breaksOff, limit⟩
    match fuses.get call with
    | none => run fuses
    | some (n + 1) => run (fuses.set call (some n))
    | some 0 =>
      .error (if breaksOff then .abort else .error (injected call)) ⟨file, fuses, breaksOff, limit⟩

/-- Drops all bytes and, if the limit allows it, starts over with `size` zero bytes. -/
def resetWithin (limit : Option Nat) (size : Nat) : Action File Unit := fun _ =>
  if limit.all (size ≤ ·) then .ok () (.zeroed size)
  else .error (.error .lengthTooLarge) .empty

instance : Device FaultyFile where
  read offset length := guarded .read (Device.read offset length)
  write offset data := guarded .write (Device.write offset data)
  append data := guarded .append (Device.append data)
  reset size := fun f => guarded .reset (resetWithin f.limit size) f
  size := guarded .size Device.size
  sync := guarded .sync Device.sync

/-- Arms a call so that `left` more of it go through, or disarms it. -/
def arm (call : Call) (left : Option Nat) (f : FaultyFile) : FaultyFile :=
  { f with fuses := f.fuses.set call left }

/-- The file with nothing armed. -/
def disarmed (f : FaultyFile) : FaultyFile := { f with fuses := {}, breaksOff := false }

/-- Cuts the file to the given size, or fills it with zero bytes up to it, whatever is armed. A size
past the limit changes nothing. -/
def resize (size : Nat) (f : FaultyFile) : FaultyFile :=
  if f.limit.all (size ≤ ·) then { f with file := f.file.resize size } else f

end FaultyFile

end RecordFile
