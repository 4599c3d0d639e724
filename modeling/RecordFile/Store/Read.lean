import RecordFile.Scalar.Codec
import RecordFile.Store.Chain

/-!
# Reading values

`readValue` reads the bytes that a type takes up in place and decodes them. A record gives its
fields in the order of declaration. A chained array gives every slot of every block; each block
after the first is read when the link before it has been checked.
-/

namespace RecordFile

variable {δ : Type} [Device δ]

/-- Decodes `left` slots of the block at `block` from the slot `index` on and adds their values to
`items`. The contents of the block are `bytes`; `item` decodes one slot, given its offset and its
bytes. -/
def readSlots (a : ArrayLayout) (item : Nat → ByteArray → Action (Session δ) Value)
    (block : Nat) (bytes : ByteArray) :
    (left index : Nat) → (items : Array Value) → Action (Session δ) (Array Value)
  | 0, _, items => pure items
  | left + 1, index, items => do
    let slot ← orAbort (slice? bytes (index * a.element.size) a.element.size)
    let offset ← orAbort (a.slotOffset? block index)
    let v ← item offset slot
    readSlots a item block bytes left (index + 1) (items.push v)

/-- Decodes the slots of the block at `block`, whose contents are `bytes`, and of all blocks behind
it, and adds their values to `items`. -/
def readBlocks (rootSize : Nat) (a : ArrayLayout)
    (item : Nat → ByteArray → Action (Session δ) Value) (block : Nat) (bytes : ByteArray)
    (items : Array Value) : Action (Session δ) (Array Value) := do
  let items ← readSlots a item block bytes a.capacity 0 items
  match a.extent with
  | .fixed => return items
  | .chained =>
    let link : UInt64 :=
      .ofNat (littleEndianValue (← orAbort (slice? bytes a.slotsSize linkSize)))
    if link = 0 then return items
    let ⟨next, _h⟩ ← Chain.checkLink rootSize a block link
    let bytes ← Session.read next a.size
    readBlocks rootSize a item next bytes items
termination_by wordLimit - block

mutual

/-- Decodes a part at `base`, given the bytes it takes up in place. -/
def decode (rootSize : Nat) :
    Layout → (base : Nat) → (bytes : ByteArray) → Action (Session δ) Value
  | .scalar kind, _, bytes => ofExcept (kind.decode bytes)
  | .record ⟨_, fields, _, _⟩, base, bytes => do
    return .record (← decodeFields rootSize fields base bytes)
  | .array ⟨element, capacity, extent, size, capacity_pos⟩, base, bytes => do
    let a : ArrayLayout := ⟨element, capacity, extent, size, capacity_pos⟩
    let items ← readBlocks rootSize a (decode rootSize element) base bytes #[]
    return .array items.toList

/-- Decodes the fields of a record at `base`. -/
def decodeFields (rootSize : Nat) :
    List FieldLayout → (base : Nat) → (bytes : ByteArray) →
      Action (Session δ) (List (String × Value))
  | [], _, _ => pure []
  | ⟨name, layout, offset⟩ :: rest, base, bytes => do
    let slice ← orAbort (slice? bytes offset layout.size)
    let start ← orAbort (checkedAdd base offset)
    let v ← decode rootSize layout start slice
    let more ← decodeFields rootSize rest base bytes
    return (name, v) :: more

end

/-- Reads the part at `offset`. -/
def readValue (rootSize : Nat) (layout : Layout) (offset : Nat) : Action (Session δ) Value := do
  let bytes ← Session.read offset layout.size
  decode rootSize layout offset bytes

end RecordFile
