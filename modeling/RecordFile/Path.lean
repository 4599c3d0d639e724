import RecordFile.Schema
import RecordFile.Text.Numeral
import RecordFile.Text.Segments

/-!
# Paths

A path leads from the root record to a part of it: one word per step, the position of a field or the
index of an element. The empty path is the root. Paths are given as they are or as dotted text,
where a field goes by its name and an element by its index; `Schema.path` accepts both and gives
only paths that fit the schema. Whether an element of a chained array exists is not the schema's
concern, so any index passes there.

- `Schema.resolve` is the type a path leads to.
- `Schema.compilePath` turns dotted text into a path.
-/

namespace RecordFile

/-- The steps from the root record to a part of it. -/
structure Path where
  steps : List UInt64
  deriving DecidableEq, Repr

/-- A path as a caller gives it. -/
inductive Address where
  | dotted (text : String)
  | path (p : Path)
  deriving DecidableEq, Repr

namespace Path

def root : Path := ⟨[]⟩

def length (p : Path) : Nat := p.steps.length

/-- The steps with dots between them. -/
def text (p : Path) : String :=
  ".".intercalate (p.steps.map fun n => toString n.toNat)

end Path

namespace Layout

/-- The type one step below, or what is wrong with the step. -/
def child (path : Path) (position : Nat) (step : UInt64) : Layout → Except Error Layout
  | record r =>
    match r.fields[step.toNat]? with
    | some f => .ok f.layout
    | none => .error (.invalidPath path.text position (.noFieldAt r.name step.toNat))
  | array a =>
    if a.extent = .fixed ∧ a.capacity ≤ step.toNat then
      .error (.indexOutOfRange step.toNat a.capacity)
    else .ok a.element
  | scalar kind => .error (.invalidPath path.text position (.belowScalar kind))

/-- The type at the end of some steps of a path, the first of which stands at `position`. -/
def descend (path : Path) : (position : Nat) → Layout → List UInt64 → Except Error Layout
  | _, layout, [] => .ok layout
  | position, layout, step :: rest => do
    descend path (position + 1) (← layout.child path position step) rest

/-- The step that a segment of the dotted text `text` stands for, and the type below it. -/
def segment (text : String) (position : Nat) (piece : List Char) :
    Layout → Except Error (UInt64 × Layout)
  | record r =>
    match r.position? (String.ofList piece) with
    | some i =>
      match r.fields[i]? with
      | some f => .ok (.ofNat i, f.layout)
      | none => .error (.invalidPath text position (.noField r.name (String.ofList piece)))
    | none => .error (.invalidPath text position (.noField r.name (String.ofList piece)))
  | array a =>
    match Numeral.value? piece with
    | none => .error (.invalidPath text position (.notAnIndex (String.ofList piece)))
    | some index =>
      if a.extent = .fixed ∧ a.capacity ≤ index then .error (.indexOutOfRange index a.capacity)
      else .ok (.ofNat index, a.element)
  | scalar kind => .error (.invalidPath text position (.belowScalar kind))

/-- The steps that segments of the dotted text `text` stand for, the first at `position`. -/
def segments (text : String) : (position : Nat) → Layout → List (List Char) →
    Except Error (List UInt64)
  | _, _, [] => .ok []
  | position, layout, piece :: rest => do
    let (step, below) ← layout.segment text position piece
    let steps ← segments text (position + 1) below rest
    .ok (step :: steps)

end Layout

namespace Schema

/-- The type that a path leads to. -/
def resolve (s : Schema) (p : Path) : Except Error Layout :=
  s.rootLayout.descend p 0 p.steps

/-- The path that dotted text stands for; the empty text stands for the root. -/
def compilePath (s : Schema) (text : String) : Except Error Path :=
  if text.isEmpty then .ok .root
  else do
    let steps ← s.rootLayout.segments text 0 (Segments.split '.' text.toList)
    .ok ⟨steps⟩

/-- The path that an address stands for. -/
def path (s : Schema) : Address → Except Error Path
  | .dotted text => s.compilePath text
  | .path p => do
    let _ ← s.resolve p
    .ok p

end Schema

end RecordFile
