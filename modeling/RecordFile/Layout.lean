import RecordFile.Config
import RecordFile.Error
import RecordFile.Number.Word

/-!
# Layouts

A layout says how a type lies in a file. A record is its fields one after the other, without
padding. A fixed array is its elements one after the other. A chained array is a block of elements
with a link behind them, a word: zero at the end of the chain, otherwise the offset of the next
block, which has the same shape.

    fixed:    [ slot 0 | slot 1 | … ]
    chained:  [ slot 0 | slot 1 | … | link ]

A layout holds the sizes and offsets computed when it was made. `ArrayLayout.make?` and
`RecordLayout.make?` are the only functions that compute them; they refuse sizes that are not words,
an array without slots, a chained array with more than `maxBlockCapacity` slots in a block, and a
record with two fields of one name. The size of a chained array is that of one block.
-/

namespace RecordFile

/-- How an array extends beyond its first slots. -/
inductive Extent where
  /-- It has exactly its capacity of elements. -/
  | fixed
  /-- It grows by linked blocks, each of its capacity of elements. -/
  | chained
  deriving DecidableEq, Repr

/-- What stands behind the name of the elements in the name of an array. -/
def Extent.suffix (capacity : Nat) : Extent → String
  | fixed => s!"[{capacity}]"
  | chained => s!"[~{capacity}]"

mutual

/-- How a type lies in a file. -/
inductive Layout where
  | scalar (kind : Scalar)
  | record (r : RecordLayout)
  | array (a : ArrayLayout)

/-- The layout of a record. -/
structure RecordLayout where
  name : String
  /-- In the order of declaration. -/
  fields : List FieldLayout
  /-- In bytes. -/
  size : Nat
  /-- Whether a chained array occurs in it. -/
  hasChain : Bool

/-- One field of a record. -/
structure FieldLayout where
  name : String
  layout : Layout
  /-- From the start of the record, in bytes. -/
  offset : Nat

/-- The layout of an array. -/
structure ArrayLayout where
  element : Layout
  /-- Slots, or slots in a block. -/
  capacity : Nat
  extent : Extent
  /-- In bytes: all slots, or one block with its link. -/
  size : Nat
  capacity_pos : 0 < capacity

end

/-- The bytes of a link. -/
def linkSize : Nat := 8

namespace Layout

/-- The bytes of the type in place. -/
def size : Layout → Nat
  | scalar kind => kind.width
  | record r => r.size
  | array a => a.size

/-- The name of the type: that of the scalar kind or record, or the element's name with the
capacity in brackets, after a tilde if the array is chained. -/
def name : Layout → String
  | scalar kind => kind.name
  | record r => r.name
  | array ⟨element, capacity, extent, _, _⟩ => element.name ++ extent.suffix capacity

/-- Whether a chained array occurs in the type. -/
def hasChain : Layout → Bool
  | scalar _ => false
  | record r => r.hasChain
  | array ⟨_, _, .chained, _, _⟩ => true
  | array ⟨element, _, .fixed, _, _⟩ => element.hasChain

end Layout

namespace ArrayLayout

def name (a : ArrayLayout) : String := (Layout.array a).name

/-- The bytes of the slots of a block. -/
def slotsSize (a : ArrayLayout) : Nat := a.capacity * a.element.size

/-- The offset of a slot of the block at `block`, if the block has that slot and its offset is a
word. -/
def slotOffset? (a : ArrayLayout) (block index : Nat) : Option Nat :=
  if index < a.capacity ∧ block + index * a.element.size < wordLimit then
    some (block + index * a.element.size)
  else none

/-- The offset of the link of the block at `block`. -/
def linkOffset (a : ArrayLayout) (block : Nat) : Nat := block + a.slotsSize

/-- The offset of the link of the block at `block`, if it is a word. -/
def linkOffset? (a : ArrayLayout) (block : Nat) : Option Nat := checkedAdd block a.slotsSize

/-- The name of an array that may have no layout. -/
def nameOf (element : Layout) (capacity : Nat) (extent : Extent) : String :=
  element.name ++ extent.suffix capacity

/-- The size of an array in bytes, if it is a word. -/
def sizeOf? (element : Layout) (capacity : Nat) : Extent → Option Nat
  | .fixed => checkedMul capacity element.size
  | .chained => do checkedAdd (← checkedMul capacity element.size) linkSize

/-- The layout of an array. -/
def make? (element : Layout) (capacity : Nat) (extent : Extent) : Except Error ArrayLayout :=
  let invalid := .error (.invalidArrayLength (nameOf element capacity extent))
  if h : 0 < capacity then
    if extent = .chained ∧ maxBlockCapacity < capacity then invalid
    else match sizeOf? element capacity extent with
      | some size => .ok ⟨element, capacity, extent, size, h⟩
      | none => invalid
  else invalid

end ArrayLayout

namespace RecordLayout

/-- The position of the field of that name. -/
def position? (r : RecordLayout) (name : String) : Option Nat :=
  r.fields.findIdx? (·.name = name)

/-- Places the given fields behind those in `placed`, which end at `size`. -/
def place (record : String) : (placed : List FieldLayout) → (size : Nat) →
    List (String × Layout) → Except Error (List FieldLayout × Nat)
  | placed, size, [] => .ok (placed, size)
  | placed, size, (name, layout) :: rest =>
    if placed.any (·.name = name) then .error (.duplicateField record name)
    else match checkedAdd size layout.size with
      | none => .error (.invalidArrayLength (record ++ "." ++ name))
      | some next => place record (placed ++ [⟨name, layout, size⟩]) next rest

/-- The layout of a record with these fields, in order. -/
def make? (name : String) (fields : List (String × Layout)) : Except Error RecordLayout := do
  let (placed, size) ← place name [] 0 fields
  .ok ⟨name, placed, size, placed.any (·.layout.hasChain)⟩

end RecordLayout

end RecordFile
