import RecordFile.Schema
import RecordFile.Store.Chain
import Std.Data.HashSet

/-!
# Audits

An audit walks every chain that the root record reaches and checks each link before it follows it.
It changes nothing and counts what it reads apart. A link that cannot be read or followed is a
finding, and so is a link to a block that another link led to before; the walk of that chain ends
there, and the audit goes on with the rest.

The report tells how many blocks were reached, how many bytes they and the root record have, and
how many bytes of the file are left over. The bytes are added up in a word. Blocks that overlap may
have more bytes than there are words, and then the sum wraps around or breaks the audit off,
as the program is built (`Overflow`). Offsets are words as long as the file ends at one, so it does
not matter there how a program is built.
-/

namespace RecordFile

/-- What an audit found wrong. -/
inductive Fault where
  /-- The link cannot be read, or it must not be followed. -/
  | badLink (e : Error)
  /-- The link leads to a block that another link led to before. -/
  | sharedBlock (block : Nat)
  /-- The device does not tell its size. -/
  | unknownSize (e : Error)

def Fault.message : Fault → String
  | badLink e => e.message
  | sharedBlock block => s!"block {block} is linked more than once"
  | unknownSize e => "Failed to query file size: " ++ e.message

/-- A fault and where it was found. -/
structure Finding where
  linkOffset : Nat
  /-- The name of the array whose chain it is. -/
  array : String
  fault : Fault

/-- What an audit has seen so far. -/
structure Tally where
  /-- The offsets of the blocks that links led to. -/
  visited : Std.HashSet Nat := ∅
  blocks : Nat := 0
  /-- Bytes of the root record and of the blocks. -/
  reachable : UInt64
  /-- The latest one first. -/
  findings : List Finding := []

/-- The result of an audit. -/
structure Report where
  blocks : Nat
  reachable : Nat
  unreferenced : Nat
  findings : List Finding

namespace Report

/-- Whether nothing is wrong. -/
def isClean (r : Report) : Bool := r.findings.isEmpty

end Report

namespace Audit

variable {δ : Type}

/-- The error of an action that fails, as a result. -/
def attempt {σ α : Type} (action : Action σ α) : Action σ (Except Error α) := fun s =>
  match action s with
  | .ok a s => .ok (.ok a) s
  | .error (.error e) s => .ok (.error e) s
  | .error .abort s => .error .abort s

/-- The tally with one finding more. -/
def note (a : ArrayLayout) (linkOffset : Nat) (fault : Fault) (t : Tally) : Tally :=
  { t with findings := ⟨linkOffset, a.name, fault⟩ :: t.findings }

variable [Device δ]

/-- Audits `left` slots of the block at `block` from the slot `index` on; `item` audits one slot. -/
def visitSlots (a : ArrayLayout) (item : Nat → Tally → Action (Session δ) Tally) (block : Nat) :
    (left index : Nat) → Tally → Action (Session δ) Tally
  | 0, _, t => pure t
  | left + 1, index, t => do
    let offset ← orAbort (a.slotOffset? block index)
    visitSlots a item block left (index + 1) (← item offset t)

/-- Audits the block at `block` and all blocks behind it; `slots` audits the slots of one block. -/
def visitChain (overflow : Overflow) (rootSize : Nat) (a : ArrayLayout)
    (slots : Nat → Tally → Action (Session δ) Tally) (block : Nat) (t : Tally) :
    Action (Session δ) Tally := do
  let t ← slots block t
  let linkOffset ← orAbort (a.linkOffset? block)
  match ← attempt (Chain.follow rootSize a block) with
  | .error e => return note a linkOffset (.badLink e) t
  | .ok none => return t
  | .ok (some ⟨next, _h⟩) =>
    if t.visited.contains next then
      return note a linkOffset (.sharedBlock next) t
    let reachable ← orAbort (overflow.add t.reachable a.size)
    let t := { t with
      visited := t.visited.insert next
      blocks := t.blocks + 1
      reachable }
    visitChain overflow rootSize a slots next t
termination_by wordLimit - block

mutual

/-- Audits the part at `base`. Types without chains are passed over. -/
def visit (overflow : Overflow) (rootSize : Nat) :
    Layout → (base : Nat) → Tally → Action (Session δ) Tally
  | .scalar _, _, t => pure t
  | .record ⟨_, fields, _, hasChain⟩, base, t =>
    if hasChain then visitFields overflow rootSize fields base t else pure t
  | .array ⟨element, capacity, extent, size, capacity_pos⟩, base, t =>
    let a : ArrayLayout := ⟨element, capacity, extent, size, capacity_pos⟩
    let slots (block : Nat) (t : Tally) : Action (Session δ) Tally :=
      if element.hasChain then visitSlots a (visit overflow rootSize element) block capacity 0 t
      else pure t
    match extent with
    | .fixed => slots base t
    | .chained => visitChain overflow rootSize a slots base t

/-- Audits the fields of a record at `base`. -/
def visitFields (overflow : Overflow) (rootSize : Nat) :
    List FieldLayout → (base : Nat) → Tally → Action (Session δ) Tally
  | [], _, t => pure t
  | ⟨_, layout, offset⟩ :: rest, base, t => do
    let start ← orAbort (checkedAdd base offset)
    visitFields overflow rootSize rest base (← visit overflow rootSize layout start t)

end

/-- Audits a whole file. -/
def run (overflow : Overflow) (schema : Schema) : Action (Session δ) Report := do
  let t ← visit overflow schema.size schema.rootLayout 0 { reachable := .ofNat schema.size }
  let reachable := t.reachable.toNat
  match ← attempt Session.size with
  | .ok fileSize =>
    return ⟨t.blocks, reachable, fileSize - reachable, t.findings.reverse⟩
  | .error e =>
    let finding : Finding := ⟨0, schema.root.name, .unknownSize e⟩
    return ⟨t.blocks, reachable, 0, (finding :: t.findings).reverse⟩

end Audit

end RecordFile
