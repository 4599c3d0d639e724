import RecordFile.Layout
import RecordFile.Store.Session

/-!
# Chains of blocks

A chained array starts with a block in place, and the link of each block leads to the next one. A
link is checked before it is followed: it has to lead past the block that holds it, past the root
record, and to a place where a whole block fits into the file. Offsets along a chain therefore only
increase, and since they are words, no walk along a chain goes on forever: `Onward block` is an
offset with the proof that it is further on than `block`.

- `Chain.follow` goes to the next block, if there is one.
- `Chain.extend` appends a block of zeros and then links it. If the link cannot be written, the
  block stays behind unused; what was there before is as it was.
- `Chain.next` goes to the next block, appending it if `growth` allows.
-/

namespace RecordFile

/-- Whether walking a chain may append blocks to it. -/
inductive Growth where
  | forbidden
  | allowed
  deriving DecidableEq, Repr

/-- An offset that a valid link of the block at `block` may hold. -/
abbrev Onward (block : Nat) : Type := { next : Nat // block < next ∧ next < wordLimit }

namespace Chain

/-- The most zero bytes that are appended in one call. -/
def zeroChunk : Nat := 0x10000

variable {δ : Type} [Device δ]

/-- The link of the block at `block`. -/
def readLink (a : ArrayLayout) (block : Nat) : Action (Session δ) UInt64 := do
  let offset ← orAbort (a.linkOffset? block)
  let bytes ← Session.read offset linkSize
  return .ofNat (littleEndianValue bytes)

/-- The offset that a link of the block at `block` leads to, if the link may be followed. -/
def checkLink (rootSize : Nat) (a : ArrayLayout) (block : Nat) (link : UInt64) :
    Action (Session δ) (Onward block) := do
  let fileSize ← Session.size
  if h : block < link.toNat ∧ rootSize ≤ link.toNat ∧ link.toNat + a.size ≤ fileSize then
    return ⟨link.toNat, h.1, link.toNat_lt_size⟩
  else
    fail (.corrupted (.badLink (a.linkOffset block) link.toNat a.size fileSize))

/-- The next block after the one at `block`, if there is one. -/
def follow (rootSize : Nat) (a : ArrayLayout) (block : Nat) :
    Action (Session δ) (Option (Onward block)) := do
  let link ← readLink a block
  if link = 0 then return none
  else return some (← checkLink rootSize a block link)

/-- Appends zero bytes, in as few calls as `zeroChunk` allows. -/
def appendZeros (length : Nat) : Action (Session δ) Unit := do
  if _h : length = 0 then return
  discard (Session.call (Device.append (zeros (min length zeroChunk))))
  appendZeros (length - min length zeroChunk)
termination_by length
decreasing_by
  have : 0 < zeroChunk := by decide
  omega

/-- Appends a block of zeros and links it from the block at `block`. -/
def extend (a : ArrayLayout) (block : Nat) : Action (Session δ) Nat := do
  let head := min a.size zeroChunk
  let next ← Session.call (Device.append (zeros head))
  appendZeros (a.size - head)
  Session.count fun c => { c with bytesWritten := c.bytesWritten + a.size }
  let offset ← orAbort (a.linkOffset? block)
  Session.write offset (littleEndian linkSize next)
  Session.count fun c => { c with chainExtensions := c.chainExtensions + 1 }
  return next

/-- The next block after the one at `block`, appended if there is none. -/
def followOrExtend (rootSize : Nat) (a : ArrayLayout) (block : Nat) : Action (Session δ) Nat := do
  match ← follow rootSize a block with
  | some next => return next
  | none => extend a block

/-- The next block after the one at `block`; there is always one if growth is allowed. -/
def next (rootSize : Nat) (growth : Growth) (a : ArrayLayout) (block : Nat) :
    Action (Session δ) (Option Nat) := do
  match growth with
  | .forbidden => return (← follow rootSize a block).map (·.val)
  | .allowed => return some (← followOrExtend rootSize a block)

end Chain

end RecordFile
