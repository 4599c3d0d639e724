import RecordFile.Path
import RecordFile.Store.Chain

/-!
# Where a path leads

`tracePath` follows a path from the root record to the offset of what it addresses. A field is at
its offset in the record; an element of a fixed array is at its place in the array; an element of a
chained array is in the block that `locate` reaches by walking the chain, one block for every
`capacity` elements. An element past the last block is out of range, or, where growth is allowed,
makes the chain longer on the way.
-/

namespace RecordFile

namespace Chain

variable {δ : Type} [Device δ]

/-- The offset of the element `remaining` places behind the first slot of the block at `block`. The
chain up to that block has `allocated` slots; `index` is the place of the element in the array. -/
def locateFrom (rootSize : Nat) (growth : Growth) (a : ArrayLayout) (index : Nat)
    (block remaining allocated : Nat) : Action (Session δ) Nat := do
  if _h : a.capacity ≤ remaining then
    match ← next rootSize growth a block with
    | none => fail (.indexOutOfRange index allocated)
    | some block =>
      locateFrom rootSize growth a index block (remaining - a.capacity)
        (saturatingAdd allocated a.capacity)
  else orAbort (a.slotOffset? block remaining)
termination_by remaining
decreasing_by
  have := a.capacity_pos
  omega

/-- The offset of an element of the array at `start`. -/
def locate (rootSize : Nat) (growth : Growth) (a : ArrayLayout) (start index : Nat) :
    Action (Session δ) Nat :=
  match a.extent with
  | .fixed =>
    if a.capacity ≤ index then fail (.indexOutOfRange index a.capacity)
    else orAbort (a.slotOffset? start index)
  | .chained => locateFrom rootSize growth a index start index a.capacity

end Chain

variable {δ : Type} [Device δ]

/-- The offset at the end of some steps of a path from a part at `offset`. The first of the steps
stands at `position` in the path. -/
def traceFrom (rootSize : Nat) (growth : Growth) (path : Path) :
    (position : Nat) → Layout → (offset : Nat) → List UInt64 → Action (Session δ) Nat
  | _, _, offset, [] => pure offset
  | position, layout, offset, step :: rest =>
    match layout with
    | .record r =>
      match r.fields[step.toNat]? with
      | none => fail (.invalidPath path.text position (.noFieldAt r.name step.toNat))
      | some f => do
        let offset ← orAbort (checkedAdd offset f.offset)
        traceFrom rootSize growth path (position + 1) f.layout offset rest
    | .array a => do
      let offset ← Chain.locate rootSize growth a offset step.toNat
      traceFrom rootSize growth path (position + 1) a.element offset rest
    | .scalar kind => fail (.invalidPath path.text position (.belowScalar kind))

/-- The offset of what a path addresses. -/
def tracePath (schema : Schema) (growth : Growth) (path : Path) : Action (Session δ) Nat :=
  traceFrom schema.size growth path 0 schema.rootLayout 0 path.steps

end RecordFile
