import RecordFile.Layout
import RecordFile.Scalar.Codec

/-!
# Images

An image is a value encoded for a layout, ready to be written. It is made in full before anything is
written, so a value that does not fit is refused with the file untouched.

`Layout.image` makes it. A record value has to name every field once and no other; an array value
may be shorter than its array, and longer than its capacity only if the array is chained. Parts that
cover their place side by side are merged into one run of bytes. Where something stays in between (a
link, or slots past the end of a short array), the parts stay apart. The elements of a chained array are
cut into blocks here; to leave that to the walk that writes them makes no difference
(`Store.set_eq_encoded`).
-/

namespace RecordFile

/-- A value encoded for a layout. -/
inductive Image where
  /-- Bytes from the start of the place on. -/
  | run (bytes : ByteArray)
  /-- A part for each field of a record. -/
  | fields (parts : List Image)
  /-- A part for each of the first slots of an array or of a block. -/
  | slots (parts : List Image)
  /-- A part for each of the first blocks of a chained array. -/
  | blocks (parts : List Image)

namespace Image

/-- The image as one run that fills the whole place of the given size. -/
def covering? (size : Nat) : Image → Option ByteArray
  | run bytes => if bytes.size = size then some bytes else none
  | _ => none

/-- The bytes so far and all runs one after the other, if each fills its place. The places are given
by their sizes. -/
def mergeInto? : (bytes : ByteArray) → List (Nat × Image) → Option ByteArray
  | bytes, [] => some bytes
  | bytes, (size, part) :: rest => do
    let more ← part.covering? size
    mergeInto? (bytes ++ more) rest

/-- All runs one after the other, if each fills its place. -/
def merge? (parts : List (Nat × Image)) : Option ByteArray :=
  mergeInto? ByteArray.empty parts

/-- The image of the first slots of a block whose slots have the given size: one run if possible. -/
def ofSlots (slotSize : Nat) (parts : List Image) : Image :=
  match merge? (parts.map (slotSize, ·)) with
  | some bytes => run bytes
  | none => slots parts

/-- The pieces of `capacity` items that a list falls into; the last one may be shorter. -/
def chunks {α : Type} (capacity : Nat) (h : 0 < capacity) (items : List α) : List (List α) :=
  if items = [] then [] else items.take capacity :: chunks capacity h (items.drop capacity)
termination_by items.length
decreasing_by
  have : items.length ≠ 0 := by simpa using ‹¬items = []›
  simp only [List.length_drop]
  omega

end Image

/-- Checks the names of a record value: each is a field of the record, and none comes twice. The
first name at fault decides. -/
def RecordLayout.checkNames (r : RecordLayout) : (seen : List String) → List (String × Value) →
    Except Error Unit
  | _, [] => .ok ()
  | seen, (name, _) :: rest =>
    if !r.fields.any (·.name = name) then .error (.unknownField r.name name)
    else if seen.contains name then .error (.repeatedField r.name name)
    else checkNames r (name :: seen) rest

namespace Layout

mutual

/-- The image of a value for a type, or why the value does not fit. -/
def image : Layout → Value → Except Error Image
  | scalar kind, v => do
    let bytes ← kind.encode v
    .ok (.run bytes)
  | record ⟨name, fields, size, hasChain⟩, v =>
    match v with
    | .record supplied => do
      RecordLayout.checkNames ⟨name, fields, size, hasChain⟩ [] supplied
      let parts ← fieldImages name supplied fields
      match Image.merge? ((fields.map (·.layout.size)).zip parts) with
      | some bytes => .ok (.run bytes)
      | none => .ok (.fields parts)
    | v => .error (.formMismatch name v.form)
  | array ⟨element, capacity, extent, size, capacity_pos⟩, v =>
    match v with
    | .array items =>
      if extent = .fixed ∧ capacity < items.length then
        .error (.indexOutOfRange capacity capacity)
      else do
        let parts ← items.mapM (image element)
        match extent with
        | .fixed => .ok (.ofSlots element.size parts)
        | .chained =>
          .ok (.blocks ((Image.chunks capacity capacity_pos parts).map (.ofSlots element.size)))
    | v => .error (.formMismatch (ArrayLayout.name ⟨element, capacity, extent, size, capacity_pos⟩)
        v.form)

/-- The images of the fields of a record in the order of declaration, each of the value that is
supplied under its name. -/
def fieldImages (record : String) (supplied : List (String × Value)) :
    List FieldLayout → Except Error (List Image)
  | [] => .ok []
  | ⟨name, layout, _⟩ :: rest =>
    match supplied.lookup name with
    | none => .error (.missingField record name)
    | some v => do
      let part ← image layout v
      let parts ← fieldImages record supplied rest
      .ok (part :: parts)

end

end Layout

end RecordFile
