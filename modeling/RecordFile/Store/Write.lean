import RecordFile.Image
import RecordFile.Store.Chain

/-!
# Writing images

`writeImage` puts an image where it belongs. A run is one write. The parts of a record or of slots
are written one by one, and the blocks of a chained array one after the other, each reached by the
link of the block before it or appended when that link is zero. Links and slots that the image has
no part for are never touched.
-/

namespace RecordFile

variable {δ : Type} [Device δ]

mutual

/-- Writes an image of a type to the part at `offset`. -/
def writeImage (rootSize : Nat) (layout : Layout) (offset : Nat) :
    Image → Action (Session δ) Unit
  | .run bytes => Session.write offset bytes
  | .fields parts =>
    match layout with
    | .record r => writeFields rootSize offset r.fields parts
    | layout => fail (.planMismatch layout.name)
  | .slots parts =>
    match layout with
    | .array a => writeSlots rootSize a offset 0 parts
    | layout => fail (.planMismatch layout.name)
  | .blocks parts =>
    match layout with
    | .array a => writeBlocks rootSize a offset true parts
    | layout => fail (.planMismatch layout.name)

/-- Writes the parts of a record at `offset` to its fields. -/
def writeFields (rootSize : Nat) (offset : Nat) :
    List FieldLayout → List Image → Action (Session δ) Unit
  | f :: fields, part :: parts => do
    let start ← orAbort (checkedAdd offset f.offset)
    writeImage rootSize f.layout start part
    writeFields rootSize offset fields parts
  | _, _ => pure ()

/-- Writes parts to the slots of the block at `block` from the slot `index` on. -/
def writeSlots (rootSize : Nat) (a : ArrayLayout) (block : Nat) (index : Nat) :
    List Image → Action (Session δ) Unit
  | [] => pure ()
  | part :: parts => do
    let offset ← orAbort (a.slotOffset? block index)
    writeImage rootSize a.element offset part
    writeSlots rootSize a block (index + 1) parts

/-- Writes the images of blocks to a chain. The first of them goes to the block at `block` if
`here` holds, and otherwise to the block behind it. -/
def writeBlocks (rootSize : Nat) (a : ArrayLayout) (block : Nat) (here : Bool) :
    List Image → Action (Session δ) Unit
  | [] => pure ()
  | part :: parts => do
    let block ← if here then pure block else Chain.followOrExtend rootSize a block
    writeImage rootSize (.array a) block part
    writeBlocks rootSize a block false parts

end

end RecordFile
