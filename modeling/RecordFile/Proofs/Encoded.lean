import RecordFile.Proofs.Action
import RecordFile.Proofs.Image
import RecordFile.Store

/-!
# Plans that are cut into blocks while they are written

An image has its elements cut into blocks, and the runs of each block merged, before anything is
written. A plan may as well keep the elements of a chained array side by side (`Encoded`), and leave
both to the walk that writes them (`writeEncoded`), which then goes from block to block.

This makes no difference. A value has a plan just if it has an image, and is refused for the same
reason otherwise; the image is the plan with its elements cut into blocks (`Layout.image_eq`). Writing
the plan of a value is writing its image (`writeEncoded_eq`), so `Store.set` can be read either way
(`Store.set_eq_encoded`).
-/

namespace RecordFile

/-- A value encoded for a layout. -/
inductive Encoded where
  /-- Bytes from the start of the place on. -/
  | bytes (data : ByteArray)
  /-- A part for each field of a record. -/
  | fields (parts : List Encoded)
  /-- A part for each of the first elements of an array. -/
  | elements (parts : List Encoded)

namespace Encoded

/-- Whether this is one run of bytes that fills a place of the given size. -/
def covers (size : Nat) : Encoded → Bool
  | bytes data => data.size = size
  | _ => false

/-- The bytes of all parts that are runs, one after the other. -/
def flatten : List Encoded → ByteArray
  | [] => ByteArray.empty
  | bytes data :: rest => data ++ flatten rest
  | _ :: rest => flatten rest

end Encoded

namespace Layout

mutual

/-- The plan of a value for a type, or why the value does not fit. Parts that fill a record, or the
first slots of a fixed array, are one run. -/
def encoded : Layout → Value → Except Error Encoded
  | scalar kind, v => do
    let data ← kind.encode v
    .ok (.bytes data)
  | record ⟨name, fields, size, hasChain⟩, v =>
    match v with
    | .record supplied => do
      RecordLayout.checkNames ⟨name, fields, size, hasChain⟩ [] supplied
      let parts ← encodedFields name supplied fields
      if (fields.zip parts).all fun p => p.2.covers p.1.layout.size then
        .ok (.bytes (Encoded.flatten parts))
      else .ok (.fields parts)
    | v => .error (.formMismatch name v.form)
  | array ⟨element, capacity, extent, size, capacity_pos⟩, v =>
    match v with
    | .array items =>
      if extent = .fixed ∧ capacity < items.length then
        .error (.indexOutOfRange capacity capacity)
      else do
        let parts ← items.mapM (encoded element)
        if extent = .fixed ∧ parts.all (·.covers element.size) then .ok (.bytes (Encoded.flatten parts))
        else .ok (.elements parts)
    | v => .error (.formMismatch (ArrayLayout.name ⟨element, capacity, extent, size, capacity_pos⟩)
        v.form)

/-- The plans of the fields of a record in the order of declaration, each of the value that is
supplied under its name. -/
def encodedFields (record : String) (supplied : List (String × Value)) :
    List FieldLayout → Except Error (List Encoded)
  | [] => .ok []
  | ⟨name, layout, _⟩ :: rest =>
    match supplied.lookup name with
    | none => .error (.missingField record name)
    | some v => do
      let part ← encoded layout v
      let parts ← encodedFields record supplied rest
      .ok (part :: parts)

end

end Layout

section

variable {δ : Type} [Device δ]

/-- Writes parts to the slots of the block at `block` from the slot `index` on; `item` writes one. -/
def writeElements (a : ArrayLayout) (item : Nat → Encoded → Action (Session δ) Unit)
    (block : Nat) : (index : Nat) → List Encoded → Action (Session δ) Unit
  | _, [] => pure ()
  | index, part :: parts => do
    let offset ← orAbort (a.slotOffset? block index)
    item offset part
    writeElements a item block (index + 1) parts

/-- Writes elements to the first slots of the block at `block`, in one write if they are runs that fill
their slots. -/
def writeChunk (a : ArrayLayout) (item : Nat → Encoded → Action (Session δ) Unit) (block : Nat)
    (chunk : List Encoded) : Action (Session δ) Unit :=
  if chunk.all (·.covers a.element.size) then Session.write block (Encoded.flatten chunk)
  else writeElements a item block 0 chunk

/-- Writes the elements of an array, one chunk to each block. The first one goes to the block at
`block` if `here` holds, and otherwise to the block behind it. -/
def writeChunks (rootSize : Nat) (a : ArrayLayout) (item : Nat → Encoded → Action (Session δ) Unit) :
    (block : Nat) → (here : Bool) → List (List Encoded) → Action (Session δ) Unit
  | _, _, [] => pure ()
  | block, here, chunk :: chunks => do
    let block ← if here then pure block else Chain.followOrExtend rootSize a block
    writeChunk a item block chunk
    writeChunks rootSize a item block false chunks

mutual

/-- Writes a plan for a type to the part at `offset`. -/
def writeEncoded (rootSize : Nat) : Layout → (offset : Nat) → Encoded → Action (Session δ) Unit
  | _, offset, .bytes data => Session.write offset data
  | .record ⟨_, fields, _, _⟩, offset, .fields parts =>
    writeEncodedFields rootSize fields offset parts
  | .array ⟨element, capacity, extent, size, capacity_pos⟩, offset, .elements parts =>
    writeChunks rootSize ⟨element, capacity, extent, size, capacity_pos⟩
      (writeEncoded rootSize element) offset true (Image.chunks capacity capacity_pos parts)
  | layout, _, _ => fail (.planMismatch layout.name)

/-- Writes the parts of a record at `offset` to its fields. -/
def writeEncodedFields (rootSize : Nat) :
    List FieldLayout → (offset : Nat) → List Encoded → Action (Session δ) Unit
  | ⟨_, layout, start⟩ :: fields, offset, part :: parts => do
    let place ← orAbort (checkedAdd offset start)
    writeEncoded rootSize layout place part
    writeEncodedFields rootSize fields offset parts
  | _, _, _ => pure ()

end

end

/-! ## Images of plans -/

mutual

/-- The image of a plan: its elements are cut into blocks. -/
def Encoded.image : Layout → Encoded → Image
  | _, .bytes data => .run data
  | .record ⟨_, row, _, _⟩, .fields parts => .fields (fieldImages row parts)
  | .array ⟨element, capacity, extent, _, capacity_pos⟩, .elements parts =>
    match extent with
    | .fixed => .slots (parts.map (image element))
    | .chained =>
      .blocks ((Image.chunks capacity capacity_pos (parts.map (image element))).map
        (.ofSlots element.size))
  | _, .fields _ => .fields []
  | _, .elements _ => .slots []

def Encoded.fieldImages : List FieldLayout → List Encoded → List Image
  | ⟨_, layout, _⟩ :: row, part :: parts => image layout part :: fieldImages row parts
  | _, _ => []

end

namespace Encoded

@[simp] theorem image_bytes (l : Layout) (data : ByteArray) : (bytes data).image l = .run data := by
  cases l <;> rw [image]

theorem image_fields (r : RecordLayout) (parts : List Encoded) :
    (fields parts).image (.record r) = .fields (fieldImages r.fields parts) := by
  obtain ⟨name, row, size, hasChain⟩ := r
  rfl

theorem image_elements (a : ArrayLayout) (parts : List Encoded) :
    (elements parts).image (.array a) = match a.extent with
      | .fixed => .slots (parts.map (image a.element))
      | .chained => .blocks ((Image.chunks a.capacity a.capacity_pos (parts.map (image a.element))).map
        (.ofSlots a.element.size)) := by
  obtain ⟨element, capacity, extent, size, capacity_pos⟩ := a
  rfl

/-- The image fills a place just if the plan does. -/
theorem covering?_image (l : Layout) (e : Encoded) (size : Nat) :
    (e.image l).covering? size = if e.covers size then some (flatten [e]) else none := by
  cases e with
  | bytes data =>
    rw [image_bytes, Image.covering?, flatten, flatten, ByteArray.append_empty]
    simp [covers]
  | fields parts =>
    cases l with
    | record r =>
      rw [image_fields]
      rfl
    | scalar kind => simp [image, Image.covering?, covers]
    | array a => simp [image, Image.covering?, covers]
  | elements parts =>
    cases l with
    | array a =>
      rw [image_elements]
      cases a.extent <;> rfl
    | scalar kind => simp [image, Image.covering?, covers]
    | record r => simp [image, Image.covering?, covers]

/-- One part more. -/
theorem merge?_cons_image {size : Nat} {parts : List Encoded} {images : List (Nat × Image)}
    {filled : Bool} (h : Image.merge? images = if filled then some (flatten parts) else none)
    (l : Layout) (e : Encoded) :
    Image.merge? ((size, e.image l) :: images) =
      if e.covers size && filled then some (flatten (e :: parts)) else none := by
  rw [Image.merge?_cons_eq, covering?_image, h]
  cases e with
  | bytes data => cases filled <;> by_cases hsize : data.size = size <;> simp [covers, hsize, flatten]
  | fields parts => rfl
  | elements parts => rfl

/-- The images of elements can be merged just if the elements fill their slots. -/
theorem merge?_elements (l : Layout) (size : Nat) (parts : List Encoded) :
    Image.merge? ((parts.map (image l)).map (size, ·)) =
      if parts.all (·.covers size) then some (flatten parts) else none := by
  induction parts with
  | nil => rfl
  | cons part parts ih => exact merge?_cons_image ih l part

/-- The images of fields can be merged just if the fields fill their places. -/
theorem merge?_fieldImages {fields : List FieldLayout} {parts : List Encoded}
    (hlen : parts.length = fields.length) :
    Image.merge? ((fields.map (·.layout.size)).zip (fieldImages fields parts)) =
      if (fields.zip parts).all fun p => p.2.covers p.1.layout.size then some (flatten parts)
      else none := by
  induction fields generalizing parts with
  | nil =>
    obtain rfl := List.eq_nil_of_length_eq_zero hlen
    rfl
  | cons field rest ih =>
    cases parts with
    | nil => cases hlen
    | cons part parts =>
      obtain ⟨name, layout, start⟩ := field
      exact merge?_cons_image (ih (Nat.succ.inj hlen)) layout part

end Encoded

/-! ## The plan and the image of a value -/

/-- Going through a list with a step that is another one and a map behind it. -/
theorem mapM_eq_map {α β γ : Type} {f : α → Except Error β} {f' : α → Except Error γ} {g : β → γ}
    (h : ∀ x, f' x = (f x).map g) (items : List α) :
    items.mapM f' = (items.mapM f).map (List.map g) := by
  induction items with
  | nil => rfl
  | cons x items ih =>
    rw [List.mapM_cons, List.mapM_cons, ih, h]
    cases f x with
    | error e => rfl
    | ok y => cases items.mapM f <;> rfl

theorem exists_of_mapM {α β : Type} {f : α → Except Error β} {items : List α} {results : List β}
    (h : items.mapM f = .ok results) : ∀ y ∈ results, ∃ x, f x = .ok y := by
  have hall := mapM_eq_ok_iff.mp h
  clear h
  induction hall with
  | nil => simp
  | cons head _ ih => exact List.forall_mem_cons.mpr ⟨⟨_, head⟩, ih⟩

namespace Layout

theorem encodedFields_cons_ok {record name : String} {supplied : List (String × Value)}
    {layout : Layout} {start : Nat} {rest : List FieldLayout} {parts : List Encoded}
    (h : encodedFields record supplied (⟨name, layout, start⟩ :: rest) = .ok parts) :
    ∃ v part more, layout.encoded v = .ok part ∧ encodedFields record supplied rest = .ok more ∧
      parts = part :: more := by
  rw [encodedFields] at h
  cases hlookup : supplied.lookup name with
  | none => simp [hlookup] at h
  | some v =>
    cases hpart : layout.encoded v with
    | error e => simp [hlookup, hpart, bind, Except.bind] at h
    | ok part =>
      cases hrest : encodedFields record supplied rest with
      | error e => simp [hlookup, hpart, hrest, bind, Except.bind] at h
      | ok more =>
        simp only [hlookup, hpart, hrest, bind, Except.bind, Except.ok.injEq] at h
        exact ⟨v, part, more, hpart, rfl, h.symm⟩

theorem length_encodedFields {record : String} {supplied : List (String × Value)}
    {fields : List FieldLayout} {parts : List Encoded}
    (h : encodedFields record supplied fields = .ok parts) : parts.length = fields.length := by
  induction fields generalizing parts with
  | nil =>
    rw [encodedFields] at h
    obtain rfl := Except.ok.inj h
    rfl
  | cons field rest ih =>
    obtain ⟨name, layout, start⟩ := field
    obtain ⟨v, part, more, -, hmore, rfl⟩ := encodedFields_cons_ok h
    exact congrArg (· + 1) (ih hmore)

theorem fieldImages_eq {record : String} {supplied : List (String × Value)}
    {fields : List FieldLayout}
    (h : ∀ f ∈ fields, ∀ v, f.layout.image v = (f.layout.encoded v).map (·.image f.layout)) :
    fieldImages record supplied fields =
      (encodedFields record supplied fields).map (Encoded.fieldImages fields) := by
  induction fields with
  | nil =>
    rw [fieldImages, encodedFields]
    rfl
  | cons field rest ih =>
    obtain ⟨name, layout, start⟩ := field
    obtain ⟨hfield, hrest⟩ := List.forall_mem_cons.mp h
    rw [fieldImages, encodedFields, ih hrest]
    cases supplied.lookup name with
    | none => rfl
    | some v =>
      dsimp only
      rw [hfield v]
      cases layout.encoded v with
      | error e => rfl
      | ok part => cases encodedFields record supplied rest <;> rfl

/-- The image of a value is its plan, cut into blocks. -/
theorem image_eq (l : Layout) (v : Value) : l.image v = (l.encoded v).map (·.image l) := by
  induction l using Layout.induction generalizing v with
  | scalar kind =>
    rw [image, encoded]
    cases kind.encode v <;> rfl
  | record r ih =>
    obtain ⟨name, fields, size, hasChain⟩ := r
    cases v with
    | record supplied =>
      rw [image, encoded, fieldImages_eq ih]
      dsimp only
      cases RecordLayout.checkNames ⟨name, fields, size, hasChain⟩ [] supplied with
      | error e => rfl
      | ok _ =>
        cases hparts : encodedFields name supplied fields with
        | error e => rfl
        | ok parts =>
          simp only [bind, Except.bind, Except.map]
          rw [Encoded.merge?_fieldImages (length_encodedFields hparts)]
          cases (fields.zip parts).all fun p => p.2.covers p.1.layout.size <;> rfl
    | _ => rfl
  | array a ih =>
    obtain ⟨element, capacity, extent, size, capacity_pos⟩ := a
    cases v with
    | array items =>
      rw [image, encoded, mapM_eq_map ih]
      split
      · rfl
      · cases items.mapM element.encoded with
        | error e => rfl
        | ok parts =>
          cases extent with
          | chained => simp [bind, Except.bind, Except.map, Encoded.image]
          | fixed =>
            simp only [bind, Except.bind, Except.map, Image.ofSlots, true_and]
            rw [Encoded.merge?_elements]
            cases parts.all (·.covers element.size) <;> rfl
    | _ => rfl

theorem encoded_record_ok {r : RecordLayout} {v : Value} {e : Encoded}
    (h : (record r).encoded v = .ok e) :
    ∃ supplied parts, encodedFields r.name supplied r.fields = .ok parts ∧
      (e = .bytes (Encoded.flatten parts) ∨ e = .fields parts) := by
  obtain ⟨name, fields, size, hasChain⟩ := r
  cases v with
  | record supplied =>
    rw [encoded] at h
    cases hnames : RecordLayout.checkNames ⟨name, fields, size, hasChain⟩ [] supplied with
    | error e => simp [hnames, bind, Except.bind] at h
    | ok _ =>
      cases hparts : encodedFields name supplied fields with
      | error e => simp [hnames, hparts, bind, Except.bind] at h
      | ok parts =>
        simp only [hnames, hparts, bind, Except.bind] at h
        refine ⟨supplied, parts, hparts, ?_⟩
        split at h
        · exact .inl (Except.ok.inj h).symm
        · exact .inr (Except.ok.inj h).symm
  | _ => cases h

theorem encoded_array_ok {a : ArrayLayout} {v : Value} {e : Encoded}
    (h : (array a).encoded v = .ok e) :
    ∃ (items : List Value) (parts : List Encoded), items.mapM a.element.encoded = .ok parts ∧
      (a.extent = .fixed → items.length ≤ a.capacity) ∧
      (e = .bytes (Encoded.flatten parts) ∨ e = .elements parts ∧
        (a.extent = .fixed → parts.all (·.covers a.element.size) = false)) := by
  obtain ⟨element, capacity, extent, size, capacity_pos⟩ := a
  cases v with
  | array items =>
    rw [encoded] at h
    split at h
    · cases h
    · rename_i hlen
      cases hparts : items.mapM element.encoded with
      | error e => simp [hparts, bind, Except.bind] at h
      | ok parts =>
        simp only [hparts, bind, Except.bind] at h
        refine ⟨items, parts, hparts, fun hext => Nat.not_lt.mp fun hlt => hlen ⟨hext, hlt⟩, ?_⟩
        split at h
        · exact .inl (Except.ok.inj h).symm
        · rename_i hcovers
          exact .inr ⟨(Except.ok.inj h).symm, fun hext =>
            Bool.eq_false_iff.mpr fun hall => hcovers ⟨hext, hall⟩⟩
  | _ => cases h

end Layout

/-! ## Writing -/

theorem Image.chunks_map {α β : Type} {capacity : Nat} (h : 0 < capacity) (g : α → β)
    (items : List α) : chunks capacity h (items.map g) = (chunks capacity h items).map (List.map g) := by
  fun_induction chunks capacity h items with
  | case1 => rw [List.map_nil, chunks_nil, List.map_nil]
  | case2 items hne ih =>
    rw [chunks_of_ne_nil (by simpa using hne), ← List.map_take, ← List.map_drop, ih, List.map_cons]

theorem Image.mem_of_mem_chunks {α : Type} {capacity : Nat} (h : 0 < capacity) {items : List α} :
    ∀ chunk ∈ chunks capacity h items, ∀ x ∈ chunk, x ∈ items := by
  fun_induction chunks capacity h items with
  | case1 => simp
  | case2 items hne ih =>
    refine List.forall_mem_cons.mpr ⟨fun x hx => List.mem_of_mem_take hx, fun chunk hchunk x hx => ?_⟩
    exact List.mem_of_mem_drop (ih chunk hchunk x hx)

section

variable {δ : Type} [Device δ] {rootSize : Nat}

@[simp] theorem writeEncoded_bytes (l : Layout) (offset : Nat) (data : ByteArray) :
    writeEncoded (δ := δ) rootSize l offset (.bytes data) = Session.write offset data := by
  cases l <;> rw [writeEncoded]

theorem writeEncoded_fields (r : RecordLayout) (offset : Nat) (parts : List Encoded) :
    writeEncoded (δ := δ) rootSize (.record r) offset (.fields parts) =
      writeEncodedFields rootSize r.fields offset parts := by
  obtain ⟨name, row, size, hasChain⟩ := r
  rw [writeEncoded]

theorem writeEncoded_elements (a : ArrayLayout) (offset : Nat) (parts : List Encoded) :
    writeEncoded (δ := δ) rootSize (.array a) offset (.elements parts) =
      writeChunks rootSize a (writeEncoded rootSize a.element) offset true
        (Image.chunks a.capacity a.capacity_pos parts) := by
  obtain ⟨element, capacity, extent, size, capacity_pos⟩ := a
  rw [writeEncoded]

/-- Writing a single block. -/
theorem writeBlocks_singleton (a : ArrayLayout) (block : Nat) (part : Image) :
    writeBlocks (δ := δ) rootSize a block true [part] = writeImage rootSize (.array a) block part := by
  rw [writeBlocks]
  simp [writeBlocks]

/-- Writing a plan for a type is writing its image, wherever it goes. -/
def Encoded.Agrees (δ : Type) [Device δ] (rootSize : Nat) (l : Layout) (e : Encoded) : Prop :=
  ∀ offset, writeEncoded (δ := δ) rootSize l offset e = writeImage rootSize l offset (e.image l)

theorem Encoded.Agrees.bytes (l : Layout) (data : ByteArray) :
    (Encoded.bytes data).Agrees δ rootSize l := by
  intro offset
  rw [writeEncoded_bytes, image_bytes, writeImage]

theorem writeEncodedFields_eq {record : String} {supplied : List (String × Value)}
    {fields : List FieldLayout} {parts : List Encoded}
    (h : Layout.encodedFields record supplied fields = .ok parts)
    (ih : ∀ f ∈ fields, ∀ v e, f.layout.encoded v = .ok e → e.Agrees δ rootSize f.layout)
    (offset : Nat) :
    writeEncodedFields (δ := δ) rootSize fields offset parts =
      writeFields rootSize offset fields (Encoded.fieldImages fields parts) := by
  induction fields generalizing parts with
  | nil =>
    rw [writeEncodedFields, Encoded.fieldImages, writeFields]
    all_goals simp
  | cons field rest ihrest =>
    obtain ⟨name, layout, start⟩ := field
    obtain ⟨v, part, more, hpart, hmore, rfl⟩ := Layout.encodedFields_cons_ok h
    obtain ⟨hfield, hrest⟩ := List.forall_mem_cons.mp ih
    rw [writeEncodedFields, Encoded.fieldImages, writeFields, ihrest hmore hrest]
    simp only [hfield v part hpart _]

theorem writeElements_eq {a : ArrayLayout} {parts : List Encoded}
    (h : ∀ part ∈ parts, part.Agrees δ rootSize a.element) (block index : Nat) :
    writeElements (δ := δ) a (writeEncoded rootSize a.element) block index parts =
      writeSlots rootSize a block index (parts.map (Encoded.image a.element)) := by
  induction parts generalizing index with
  | nil => rw [writeElements, List.map_nil, writeSlots]
  | cons part parts ih =>
    obtain ⟨hpart, hparts⟩ := List.forall_mem_cons.mp h
    rw [writeElements, List.map_cons, writeSlots, ih hparts]
    simp only [hpart _]

theorem writeChunk_eq {a : ArrayLayout} {chunk : List Encoded}
    (h : ∀ part ∈ chunk, part.Agrees δ rootSize a.element) (block : Nat) :
    writeChunk (δ := δ) a (writeEncoded rootSize a.element) block chunk =
      writeImage rootSize (.array a) block
        (.ofSlots a.element.size (chunk.map (Encoded.image a.element))) := by
  rw [writeChunk, Image.ofSlots, Encoded.merge?_elements, writeElements_eq h]
  cases chunk.all (·.covers a.element.size) with
  | true =>
    show _ = writeImage rootSize (.array a) block (.run _)
    rw [if_pos rfl, writeImage]
  | false =>
    show _ = writeImage rootSize (.array a) block (.slots _)
    rw [if_neg Bool.false_ne_true, writeImage]

/-- The elements of an array, block by block. -/
theorem writeChunks_eq {a : ArrayLayout} {chunks : List (List Encoded)}
    (h : ∀ chunk ∈ chunks, ∀ part ∈ chunk, part.Agrees δ rootSize a.element) (block : Nat)
    (here : Bool) :
    writeChunks (δ := δ) rootSize a (writeEncoded rootSize a.element) block here chunks =
      writeBlocks rootSize a block here (chunks.map fun chunk =>
        .ofSlots a.element.size (chunk.map (Encoded.image a.element))) := by
  induction chunks generalizing block here with
  | nil => rw [writeChunks, List.map_nil, writeBlocks]
  | cons chunk chunks ih =>
    obtain ⟨hchunk, hchunks⟩ := List.forall_mem_cons.mp h
    rw [writeChunks, List.map_cons, writeBlocks]
    simp only [writeChunk_eq hchunk, ih hchunks]

/-- Writing the plan of a value is writing its image. -/
theorem writeEncoded_eq {l : Layout} {v : Value} {e : Encoded} (h : l.encoded v = .ok e) :
    e.Agrees δ rootSize l := by
  induction l using Layout.induction generalizing v e with
  | scalar kind =>
    rw [Layout.encoded] at h
    cases hdata : kind.encode v with
    | error e => simp [hdata, bind, Except.bind] at h
    | ok data =>
      rw [hdata] at h
      obtain rfl := Except.ok.inj h
      exact .bytes _ _
  | record r ih =>
    obtain ⟨supplied, parts, hparts, rfl | rfl⟩ := Layout.encoded_record_ok h
    · exact .bytes _ _
    · intro offset
      rw [writeEncoded_fields, Encoded.image_fields, writeImage]
      exact writeEncodedFields_eq hparts (fun f hf v e h => ih f hf h) offset
  | array a ih =>
    obtain ⟨items, parts, hparts, hlen, rfl | ⟨rfl, hcovers⟩⟩ := Layout.encoded_array_ok h
    · exact .bytes _ _
    · intro offset
      have hagrees : ∀ part ∈ parts, part.Agrees δ rootSize a.element := fun part hpart => by
        obtain ⟨item, hitem⟩ := exists_of_mapM hparts part hpart
        exact ih hitem
      have hchunks := writeChunks_eq (fun chunk hchunk part hpart =>
        hagrees part (Image.mem_of_mem_chunks a.capacity_pos chunk hchunk part hpart)) offset true
      rw [writeEncoded_elements, hchunks, Encoded.image_elements]
      cases hext : a.extent with
      | chained =>
        dsimp only
        rw [writeImage, Image.chunks_map, List.map_map]
        rfl
      | fixed =>
        -- A fixed array is one block, which its elements do not fill.
        have hle : parts.length ≤ a.capacity :=
          (mapM_eq_ok_iff.mp hparts).length_eq ▸ hlen hext
        have hne : parts ≠ [] := by
          rintro rfl
          cases hcovers hext
        have hslots : Image.ofSlots a.element.size (parts.map (Encoded.image a.element)) =
            .slots (parts.map (Encoded.image a.element)) := by
          rw [Image.ofSlots, Encoded.merge?_elements, hcovers hext]
          rfl
        rw [Image.chunks_of_ne_nil hne, List.take_of_length_le hle, List.drop_eq_nil_of_le hle,
          Image.chunks_nil, List.map_singleton, writeBlocks_singleton, hslots]

/-- What writing the part at an address does, with a plan whose elements are cut into blocks while it is
written. -/
theorem Store.set_eq_encoded (address : Address) (v : Value) :
    Store.set (δ := δ) address v = Store.onSession (fun schema => do
      let path ← ofExcept (schema.path address)
      let layout ← ofExcept (schema.resolve path)
      let encoded ← ofExcept (layout.encoded v)
      let offset ← tracePath schema .allowed path
      writeEncoded schema.size layout offset encoded
      if schema.config.syncOnWrite then Session.call Device.sync) := by
  rw [Store.set]
  congr 1
  funext schema
  cases schema.path address with
  | error e => rfl
  | ok path =>
    simp only [ofExcept_ok_bind]
    cases schema.resolve path with
    | error e => rfl
    | ok layout =>
      simp only [ofExcept_ok_bind, Layout.image_eq]
      cases hencoded : layout.encoded v with
      | error e => rfl
      | ok encoded =>
        simp only [Except.map, ofExcept_ok_bind, writeEncoded_eq hencoded _]

end

end RecordFile
