import RecordFile.Proofs.Store.Mirrors

/-!
# Writing a value part by part

`Layout.requests` walks a value depth first and asks for each of its parts: first for the place of the
part, with growth allowed, and then, if it is a scalar, to write it. Writing the whole value at once
has the same effect on the file and on the count of extensions (`Store.set_eq_requests`), although it
merges what lies side by side and goes from block to block on its own.

The proof follows the image that is written. A row of places is written one by one
(`mirrors_writeRow`), which is what a merged run does at once (`endsAs_run`), and a chain
block by block (`ArrayLayout.mirrors_writeBlocks`). Of the requests for a row, the first traces a
place that is there already when the row begins to be written, so it may be left out.
-/

namespace RecordFile

open Session

namespace Layout

mutual

/-- The requests for the parts of a value below its place at the end of some steps. -/
def requestsBelow : Layout → (steps : List UInt64) → Value → List Request
  | .scalar _, steps, v => [.set (.path ⟨steps⟩) v]
  | .record ⟨_, fields, _, _⟩, steps, .record supplied => fieldRequests steps supplied 0 fields
  | .array ⟨element, _, _, _, _⟩, steps, .array items =>
    items.zipIdx.flatMap fun (v, i) =>
      .trace .allowed (.path ⟨steps ++ [.ofNat i]⟩) :: requestsBelow element (steps ++ [.ofNat i]) v
  | _, _, _ => []

/-- The requests for the values that are supplied for fields, the first of which has position `i`. -/
def fieldRequests (steps : List UInt64) (supplied : List (String × Value)) :
    (i : Nat) → List FieldLayout → List Request
  | _, [] => []
  | i, ⟨name, layout, _⟩ :: rest =>
    (match supplied.lookup name with
    | some v => .trace .allowed (.path ⟨steps ++ [.ofNat i]⟩) ::
        requestsBelow layout (steps ++ [.ofNat i]) v
    | none => []) ++ fieldRequests steps supplied (i + 1) rest

end

/-- The requests for a value and its parts, depth first: the place of each part, and then the part
itself, if it is a scalar. -/
def requests (l : Layout) (steps : List UInt64) (v : Value) : List Request :=
  .trace .allowed (.path ⟨steps⟩) :: l.requestsBelow steps v

end Layout

/-- The requests for values of some types, which are the parts from position `i` on. -/
def rowRequests (steps : List UInt64) : (i : Nat) → List (Layout × Value) → List Request
  | _, [] => []
  | i, p :: parts => p.1.requests (steps ++ [.ofNat i]) p.2 ++ rowRequests steps (i + 1) parts

namespace Layout

variable {steps : List UInt64}

theorem requestsBelow_record (r : RecordLayout) {supplied : List (String × Value)}
    {vs : List Value} (hvs : r.fields.map (fun f => supplied.lookup f.name) = vs.map some) :
    (record r).requestsBelow steps (.record supplied) =
      rowRequests steps 0 ((r.fields.map (·.layout)).zip vs) := by
  obtain ⟨name, fields, size, hasChain⟩ := r
  rw [requestsBelow]
  dsimp only at hvs ⊢
  generalize 0 = i
  induction fields generalizing vs i with
  | nil => simp [fieldRequests, rowRequests]
  | cons f fields ih =>
    obtain ⟨name, layout, start⟩ := f
    obtain _ | ⟨v, vs⟩ := vs
    · cases hvs
    simp only [List.map_cons, List.cons.injEq] at hvs
    simp only [fieldRequests, hvs.1, ih hvs.2, List.map_cons, List.zip_cons_cons, rowRequests, requests]

theorem requestsBelow_array (a : ArrayLayout) (items : List Value) :
    (array a).requestsBelow steps (.array items) =
      rowRequests steps 0 (items.map (a.element, ·)) := by
  obtain ⟨element, capacity, extent, size, capacity_pos⟩ := a
  rw [requestsBelow]
  generalize 0 = i
  induction items generalizing i with
  | nil => rfl
  | cons v items ih =>
    simp only [List.zipIdx_cons, List.flatMap_cons, ih, List.map_cons, rowRequests, requests]

end Layout

theorem rowRequests_append (steps : List UInt64) (i : Nat) (parts parts' : List (Layout × Value)) :
    rowRequests steps i (parts ++ parts') =
      rowRequests steps i parts ++ rowRequests steps (i + parts.length) parts' := by
  induction parts generalizing i with
  | nil => rfl
  | cons p parts ih =>
    simp only [List.cons_append, rowRequests, ih, List.append_assoc, List.length_cons]
    rw [Nat.add_assoc, Nat.add_comm 1]

/-- The first of the requests for a row is to trace its first place. -/
theorem rowRequests_of_ne_nil {steps : List UInt64} {i : Nat} {parts : List (Layout × Value)}
    (hne : parts ≠ []) : rowRequests steps i parts =
      .trace .allowed (.path ⟨steps ++ [.ofNat i]⟩) :: (rowRequests steps i parts).tail := by
  obtain _ | ⟨p, parts⟩ := parts
  · exact absurd rfl hne
  · rfl

/-! ## Positions that are words -/

namespace Value

/-- The number of fields or items. -/
def arity : Value → Nat
  | record fields => fields.length
  | array items => items.length
  | _ => 0

/-- The position of every part of the value is a word. -/
def Indexed (v : Value) : Prop := ∀ steps w, v.at? steps = some w → w.arity ≤ wordLimit

theorem indexed_array {items : List Value} :
    (array items).Indexed ↔ items.length ≤ wordLimit ∧ ∀ v ∈ items, v.Indexed := by
  refine ⟨fun h => ⟨h [] _ rfl, fun v hv steps w hat => ?_⟩, fun h steps w hat => ?_⟩
  · obtain ⟨i, hi⟩ := List.mem_iff_getElem?.mp hv
    exact h (i :: steps) w (by rw [at?, hi]; exact hat)
  · obtain _ | ⟨i, rest⟩ := steps
    · obtain rfl := Option.some.inj hat
      exact h.1
    · obtain ⟨v, hv, hat⟩ := Option.bind_eq_some_iff.mp hat
      exact h.2 v (List.mem_of_getElem? hv) rest w hat

theorem indexed_record {supplied : List (String × Value)} :
    (record supplied).Indexed ↔ supplied.length ≤ wordLimit ∧ ∀ p ∈ supplied, p.2.Indexed := by
  refine ⟨fun h => ⟨h [] _ rfl, fun p hp steps w hat => ?_⟩, fun h steps w hat => ?_⟩
  · obtain ⟨i, hi⟩ := List.mem_iff_getElem?.mp hp
    exact h (i :: steps) w (by rw [at?, hi]; exact hat)
  · obtain _ | ⟨i, rest⟩ := steps
    · obtain rfl := Option.some.inj hat
      exact h.1
    · obtain ⟨p, hp, hat⟩ := Option.bind_eq_some_iff.mp hat
      exact h.2 p (List.mem_of_getElem? hp) rest w hat

theorem indexed_uint (n : UInt64) : (uint n).Indexed := by
  rintro (_ | ⟨i, rest⟩) w hat
  · obtain rfl := Option.some.inj hat
    exact Nat.zero_le _
  · cases hat

/-- The values that are supplied for the fields of a record are no more than those supplied at all. -/
theorem Indexed.of_fields {r : RecordLayout} (own : r.WellFormed)
    {supplied : List (String × Value)} {vs : List Value} (h : (record supplied).Indexed)
    (hvs : r.fields.map (fun f => supplied.lookup f.name) = vs.map some) :
    vs.length ≤ wordLimit ∧ ∀ v ∈ vs, v.Indexed := by
  obtain ⟨hlen, hall⟩ := indexed_record.mp h
  have hlookup {f : FieldLayout} (hf : f ∈ r.fields) : ∃ v, supplied.lookup f.name = some v := by
    have hsome : supplied.lookup f.name ∈ vs.map some := hvs ▸ List.mem_map_of_mem hf
    obtain ⟨v, -, hv⟩ := List.mem_map.mp hsome
    exact ⟨v, hv.symm⟩
  have hmem {name : String} {v : Value} (hv : supplied.lookup name = some v) :
      (name, v) ∈ supplied := by
    obtain ⟨before, after, rfl, -⟩ := List.lookup_eq_some_iff.mp hv
    exact List.mem_append_right _ (.head _)
  refine ⟨?_, fun v hv => ?_⟩
  · have hsub : r.fields.map (·.name) ⊆ supplied.map Prod.fst := fun name hname => by
      obtain ⟨f, hf, rfl⟩ := List.mem_map.mp hname
      obtain ⟨v, hv⟩ := hlookup hf
      exact List.mem_map.mpr ⟨_, hmem hv, rfl⟩
    have hle := (own.nodup.subperm hsub).length_le
    have hcount : r.fields.length = vs.length := by simpa using congrArg List.length hvs
    simp only [List.length_map] at hle
    omega
  · have hsome : some v ∈ r.fields.map fun f => supplied.lookup f.name :=
      hvs ▸ List.mem_map_of_mem hv
    obtain ⟨f, -, hf⟩ := List.mem_map.mp hsome
    exact hall _ (hmem hf)

end Value

/-! ## Rows -/

section

variable {δ : Type} [Device δ] [LawfulDevice δ] {schema : Schema} {s : Session δ}
  {steps : List UInt64} {rootSize : Nat}

/-- The requests for the parts of a value below its place do what writing its image does. -/
def Layout.Mirrored (δ : Type) [Device δ] [LawfulDevice δ] (schema : Schema) (l : Layout) : Prop :=
  ∀ (s : Session δ) (steps : List UInt64) (offset : Nat) (v : Value) (image : Image),
    l.image v = .ok image → v.Indexed → Located schema s steps l offset →
    Mirrors schema (writeImage schema.size l offset image) s (l.requestsBelow steps v)

/-- The places of a row are those of positions from `i` on. -/
def RowLocated (schema : Schema) (s : Session δ) (steps : List UInt64) (i : Nat)
    (row : List (Layout × Nat)) : Prop :=
  ∀ k p, row[k]? = some p → Located schema s (steps ++ [.ofNat (i + k)]) p.1 p.2

namespace RowLocated

variable {i : Nat} {p : Layout × Nat} {row : List (Layout × Nat)}

theorem head (h : RowLocated schema s steps i (p :: row)) :
    Located schema s (steps ++ [.ofNat i]) p.1 p.2 := h 0 p rfl

theorem tail (h : RowLocated schema s steps i (p :: row)) :
    RowLocated schema s steps (i + 1) row := fun k q hq => by
  rw [Nat.add_assoc, Nat.add_comm 1]
  exact h (k + 1) q hq

/-- The first of the values that are written to a row has a place. -/
theorem head? {vs : List Value} (h : RowLocated schema s steps i (row.take vs.length)) :
    ∀ q ∈ ((row.map (·.1)).zip vs).head?, ∃ offset,
      Located schema s (steps ++ [.ofNat i]) q.1 offset := by
  intro q hq
  obtain _ | ⟨p, row⟩ := row
  · cases hq
  obtain _ | ⟨v, vs⟩ := vs
  · cases hq
  obtain rfl := Option.some.inj hq
  exact ⟨p.2, h.head⟩

theorem evolves {t : Session δ} (h : RowLocated schema s steps i row)
    (he : Evolves schema.size schema.part s.file t.file) : RowLocated schema t steps i row :=
  fun k p hp => (h k p hp).evolves he

end RowLocated

namespace Mirrors

variable {m : Action (Session δ) Unit} {i : Nat}

/-- The first trace may be left out, if the first place is there. -/
theorem of_tail [Keeps SizeLe m] (hinf : LawfulDevice.infallible δ)
    {parts : List (Layout × Value)}
    (hat : ∀ p ∈ parts.head?, ∃ offset, Located schema s (steps ++ [.ofNat i]) p.1 offset)
    (h : Mirrors schema m s (rowRequests steps i parts).tail) :
    Mirrors schema m s (rowRequests steps i parts) := by
  obtain _ | ⟨p, parts⟩ := parts
  · exact h
  obtain ⟨offset, hat⟩ := hat p rfl
  exact of_fits fun hfit => h.trace hat hinf hfit

end Mirrors

/-- A row is written part by part. -/
theorem mirrors_writeRow (hinf : LawfulDevice.infallible δ) {row : List (Layout × Nat)}
    {vs : List Value} {parts : List Image} {i : Nat}
    (hat : RowLocated schema s steps i (row.take vs.length))
    (hmirrored : ∀ p ∈ row, p.1.Mirrored δ schema)
    (himages : RowImages (row.map (·.1)) vs parts) (hindexed : ∀ v ∈ vs, v.Indexed)
    (hs : Sound schema.size s.file (schema.part.cells s.file)) :
    Mirrors schema (writeRow schema.size row parts) s
      (rowRequests steps i ((row.map (·.1)).zip vs)).tail := by
  induction row generalizing s vs parts i with
  | nil => exact .nil hs
  | cons p row ih =>
    rw [List.map_cons] at himages
    cases himages with
    | nil => exact .nil hs
    | @cons _ _ v vs part parts hv himages =>
      obtain ⟨hmirror, hmirrored⟩ := List.forall_mem_cons.mp hmirrored
      obtain ⟨hindex, hindexed⟩ := List.forall_mem_cons.mp hindexed
      rw [List.length_cons, List.take_succ_cons] at hat
      refine (hmirror s _ p.2 v part hv hindex hat.head).bind fun s' he => ?_
      have hrest := hat.tail.evolves he
      exact .of_tail hinf hrest.head? (ih hrest hmirrored himages hindexed he.sound)

/-! ## Arrays -/

namespace ArrayLayout

variable {a : ArrayLayout} {start block j : Nat}

/-- The elements that fall into a block are at its slots. -/
theorem rowLocated (hat : Located schema s steps (.array a) start)
    (hblock : (s.file.chain schema.size a start)[j]? = some block) {n : Nat}
    (hn : j * a.capacity + n ≤ wordLimit) :
    RowLocated schema s steps (j * a.capacity) ((a.places block).take n) := by
  intro k p hp
  rw [List.getElem?_take] at hp
  split at hp
  · have hk : k < a.capacity := a.length_places block ▸ (List.getElem?_eq_some_iff.mp hp).1
    obtain rfl : (a.element, block + k * a.element.size) = p := by
      simpa [places, hk] using hp
    exact hat.child (by omega) (Layout.children_of_chain hblock hk)
  · cases hp

/-- A block is written slot by slot. -/
theorem mirrors_writeBlock (hinf : LawfulDevice.infallible δ) (own : a.WellFormed)
    (hmirrored : a.element.Mirrored δ schema) {vs : List Value} {parts : List Image} {i : Nat}
    (hat : RowLocated schema s steps i ((a.places block).take vs.length))
    (himages : RowImages (List.replicate a.capacity a.element) vs parts)
    (hindexed : ∀ v ∈ vs, v.Indexed)
    (hs : Sound schema.size s.file (schema.part.cells s.file))
    (hle : block + a.size ≤ s.file.size) :
    Mirrors schema (writeImage schema.size (.array a) block (.ofSlots a.element.size parts)) s
      (rowRequests steps i (vs.map (a.element, ·))).tail := by
  refine .of_fits fun hfit => ?_
  have hlen := himages.length_le
  rw [List.length_replicate] at hlen
  have hrow := mirrors_writeRow hinf hat (a.forall_places hmirrored block)
    (a.layouts_places block ▸ himages) hindexed hs
  rw [a.layouts_places, replicate_zip (himages.length_eq ▸ hlen)] at hrow
  exact hrow.congr (endsAs_block hinf own hfit hle hlen)

/-- A chain is written block by block. -/
theorem mirrors_writeBlocks (hinf : LawfulDevice.infallible δ)
    (hat : Located schema s steps (.array a) start) (hext : a.extent = .chained)
    (hmirrored : a.element.Mirrored δ schema)
    (hblock : (s.file.chain schema.size a start)[j]? = some block) {items : List Value}
    {parts : List Image} {m : Nat} (himages : RowImages (List.replicate m a.element) items parts)
    (hbound : j * a.capacity + items.length ≤ wordLimit) (hindexed : ∀ v ∈ items, v.Indexed) :
    Mirrors schema (writeBlocks schema.size a block true (a.blockImages parts)) s
      (rowRequests steps (j * a.capacity) (items.map (a.element, ·))).tail := by
  induction h : items.length using Nat.strongRecOn generalizing s block items parts j with
  | ind n ih =>
    subst h
    obtain ⟨own, -⟩ := hat.le.1.of_array
    have hlength := himages.length_eq
    have hcap := a.capacity_pos
    by_cases hne : parts = []
    · subst hne
      obtain rfl := List.eq_nil_of_length_eq_zero hlength.symm
      rw [blockImages_nil, writeBlocks]
      exact .nil hat.rootSound
    have hleBlock := block_le hat.le.2 block (List.mem_of_getElem? hblock)
    have hfirst := (himages.take a.capacity).slice (n := a.capacity) (List.length_take_le ..)
    have hrow := rowLocated hat hblock (n := (items.take a.capacity).length) (by
      rw [List.length_take]
      omega)
    have hwrite := mirrors_writeBlock hinf own hmirrored hrow hfirst
      (fun v hv => hindexed v (List.mem_of_mem_take hv)) hat.rootSound hleBlock
    have hitems : items.map (a.element, ·) = (items.take a.capacity).map (a.element, ·) ++
        (items.drop a.capacity).map (a.element, ·) := by
      rw [← List.map_append, List.take_append_drop]
    have hnonempty : (items.take a.capacity).map (a.element, ·) ≠ [] := by
      have : 0 < parts.length := List.length_pos_iff.mpr hne
      refine List.ne_nil_of_length_pos ?_
      rw [List.length_map, List.length_take]
      omega
    rw [blockImages_of_ne_nil hne, writeBlocks_true, hitems, rowRequests_append,
      rowRequests_of_ne_nil hnonempty, List.cons_append, List.tail_cons]
    refine hwrite.bind fun s₁ he => ?_
    have hdrop := (himages.drop a.capacity).length_eq
    by_cases hmore : parts.drop a.capacity = []
    · rw [hmore] at hdrop
      rw [hmore, blockImages_nil, writeBlocks, List.eq_nil_of_length_eq_zero hdrop.symm]
      exact .nil he.sound
    have hpos : 0 < (items.drop a.capacity).length := hdrop ▸ List.length_pos_iff.mpr hmore
    have hindex : j * a.capacity + ((items.take a.capacity).map (a.element, ·)).length =
        (j + 1) * a.capacity := by
      rw [List.length_drop] at hpos
      rw [List.length_map, List.length_take, Nat.add_mul, Nat.one_mul]
      omega
    have hbound' : (j + 1) * a.capacity + (items.drop a.capacity).length ≤ wordLimit := by
      rw [List.length_drop] at hpos ⊢
      rw [Nat.add_mul, Nat.one_mul]
      omega
    rw [blockImages_of_ne_nil hmore, writeBlocks_false, ← blockImages_of_ne_nil hmore, hindex,
      rowRequests_of_ne_nil (List.ne_nil_of_length_pos (by rwa [List.length_map]))]
    refine .followOrExtend (hat.evolves he) hext hinf (hat.getElem?_chain he hblock)
      (by omega) fun next s₂ he₂ hnext => ?_
    exact ih _ (by rw [List.length_drop] at hpos ⊢; omega) ((hat.evolves he).evolves he₂) hnext
      (himages.drop a.capacity) hbound' (fun v hv => hindexed v (List.mem_of_mem_drop hv)) rfl

end ArrayLayout

/-! ## Values -/

/-- Writing the image of a value does what the requests for its parts do. -/
theorem Layout.WellFormed.mirrored (hinf : LawfulDevice.infallible δ) {l : Layout}
    (hw : l.WellFormed) : l.Mirrored δ schema := by
  induction hw with
  | scalar kind =>
    intro s steps offset v image h _ hat
    obtain ⟨bytes, hbytes, rfl⟩ := image_scalar_eq_ok_iff.mp h
    rw [writeImage, requestsBelow]
    exact .of_fits fun hfit => .set hat hinf hfit hbytes
  | @record r own fields ih =>
    intro s steps offset v image h hindexed hat
    obtain ⟨supplied, vs, parts, rfl, hvs, himages, rfl⟩ := image_record_ok h
    obtain ⟨hlen, hindexed⟩ := hindexed.of_fields own hvs
    have hlayouts := r.layouts_places offset
    have hrow : RowLocated schema s steps 0 ((r.places offset).take vs.length) := fun k p hp => by
      rw [List.getElem?_take] at hp
      split at hp
      · rw [Nat.zero_add]
        exact hat.child (by omega) hp
      · cases hp
    rw [requestsBelow_record r hvs, ← hlayouts]
    have hwrite := Mirrors.of_tail hinf hrow.head? (mirrors_writeRow hinf hrow
      (r.forall_places ih offset) (hlayouts ▸ himages) hindexed hat.rootSound)
    exact .of_fits fun hfit => hwrite.congr (endsAs_record hinf own hfit hat.le.2 parts)
  | @array a own element ih =>
    intro s steps offset v image h hindexed hat
    obtain ⟨items, parts, rfl, hlen, himages, rfl⟩ := image_array_ok h
    obtain ⟨hwords, hindexed⟩ := Value.indexed_array.mp hindexed
    have hbound : 0 * a.capacity + items.length ≤ wordLimit := by rwa [Nat.zero_mul, Nat.zero_add]
    have hrow := ArrayLayout.rowLocated hat File.getElem?_chain_zero hbound
    have hhead : ∀ p ∈ (items.map (a.element, ·)).head?, ∃ offset,
        Located schema s (steps ++ [.ofNat 0]) p.1 offset := fun p hp => by
      obtain ⟨v, -, rfl⟩ := List.mem_map.mp (List.mem_of_mem_head? hp)
      exact ⟨_, hat.child (by decide) (children_array_of_lt a.capacity_pos)⟩
    rw [requestsBelow_array]
    cases hext : a.extent with
    | fixed =>
      rw [Nat.zero_mul] at hrow
      exact .of_tail hinf hhead (ArrayLayout.mirrors_writeBlock hinf own ih hrow
        (himages.slice (hlen hext)) hindexed hat.rootSound hat.le.2)
    | chained =>
      have hwrite := ArrayLayout.mirrors_writeBlocks hinf hat hext ih File.getElem?_chain_zero
        himages hbound hindexed
      rw [Nat.zero_mul] at hwrite
      simp only [writeImage]
      exact .of_tail hinf hhead hwrite

end

namespace Store

variable {δ : Type} [Device δ] [LawfulDevice δ] {schema : Schema} {mark : Nat} {s : Store δ}

/-- On a device that does not fail, a planned write of a value leaves the file and the count of
extensions as do the requests for the value and its parts, one after the other: for each part, to
trace its place and make chains longer on the way, and for each scalar, to write it. -/
theorem set_eq_requests (hschema : schema.Compiled) (h : Reached schema mark s)
    (hinf : LawfulDevice.infallible δ) {address : Address} {v : Value} {path : Path}
    {layout : Layout} {image : Image} (hplan : schema.plan address v = .ok (path, layout, image))
    (hindexed : v.Indexed) (hfit : (endState (set address v) s).session.Fits) :
    ∃ s' s'', set address v s = .ok () s' ∧
      perform (layout.requests path.steps v) s = .ok () s'' ∧ Alike s'.session s''.session := by
  have hs := h.inOrder hschema (Nat.lt_of_le_of_lt ((Request.set address v).sizeLe s) hfit)
  obtain rfl := h.schema_eq
  obtain ⟨-, hlayout, himage⟩ := Schema.plan_eq_ok hplan
  have hset : set address v s =
      onSession (fun schema => writeAt schema path layout image) s := by rw [set_eq, hplan]
  have hwrite : Ends (writeAt s.schema path layout image) s.session
      (fun _ s' => ∃ t, perform (layout.requests path.steps v) s = .ok () ⟨s.schema, t⟩ ∧
        Alike s' t) fun _ _ => False := by
    have htrace : Does s.schema.size s.schema.part (.keeping fun _ => ()) (fun _ => False) _ _ _ :=
      (does_tracePath hs.wellFormed hs.sound path).weaken (fun _ _ _ => rfl)
        fun e he => he layout hlayout
    rw [writeAt]
    refine Ends.bind ((Ends.and htrace (Ends.of_wp (.self _ _))).mono (fun _ _ _ h => h)
      fun _ _ _ h => h.1.2 hinf) fun offset s₁ _ h => ?_
    obtain ⟨⟨hwork, layout', hplace⟩, hdone⟩ := h
    obtain rfl := Except.ok.inj ((Schema.resolve_of_placeAt hplace).symm.trans hlayout)
    have hat : Located s.schema s₁ path.steps layout' offset :=
      ⟨hs.wellFormed, hwork.sound, hplace⟩
    -- The first request is the trace that the write begins with.
    have hfirst : WP (Request.trace .allowed (.path path)).run s
        (fun _ t => t = ⟨s.schema, s₁⟩) fun _ _ => False :=
      (wp_run_trace hat.path_eq).mpr (by rw [WP, hdone])
    obtain ⟨⟨⟩, _, hrun, rfl⟩ := hfirst.exists_ok fun _ _ _ h => h
    refine Ends.bind (hat.le.1.mirrored hinf s₁ path.steps offset v image himage hindexed hat s₁
      ⟨rfl, rfl⟩) fun _ s₂ _ h => ?_
    obtain ⟨-, t, hbelow, halike⟩ := h
    have hperform : perform (layout'.requests path.steps v) s = .ok () ⟨s.schema, t⟩ :=
      (perform_cons hrun).trans hbelow
    split
    · refine Ends.of_wp ((wp_sync s₂).mono (fun _ s₃ h => ?_) fun _ _ h => h.2 hinf)
      exact ⟨t, hperform, h.alike.symm.trans halike⟩
    · exact Ends.pure ⟨t, hperform, halike⟩
  rw [endState_set, hplan] at hfit
  simp only [endState_onSession] at hfit
  have hwp : WP (onSession fun schema => writeAt schema path layout image) s
      (fun _ s' => ∃ t, perform (layout.requests path.steps v) s = .ok () ⟨s.schema, t⟩ ∧
        Alike s'.session t) fun _ _ => False :=
    wp_onSession_iff.mpr (hwrite.wp hfit)
  obtain ⟨⟨⟩, s', hok, t, hperform, halike⟩ := hwp.exists_ok fun _ _ _ h => h
  exact ⟨s', _, hset.trans hok, hperform, halike⟩

theorem set_eq_requests_log : ∃ s' s'',
    set (.dotted "") (.record [("count", .uint 1), ("items", .array [.uint 2, .uint 3, .uint 4])])
      emptyLog = .ok () s' ∧
    perform [.trace .allowed (.path ⟨[]⟩), .trace .allowed (.path ⟨[0]⟩),
      .set (.path ⟨[0]⟩) (.uint 1), .trace .allowed (.path ⟨[1]⟩),
      .trace .allowed (.path ⟨[1, 0]⟩), .set (.path ⟨[1, 0]⟩) (.uint 2),
      .trace .allowed (.path ⟨[1, 1]⟩), .set (.path ⟨[1, 1]⟩) (.uint 3),
      .trace .allowed (.path ⟨[1, 2]⟩), .set (.path ⟨[1, 2]⟩) (.uint 4)] emptyLog = .ok () s'' ∧
    Alike s'.session s''.session := by
  have hindexed : (Value.record [("count", .uint 1),
      ("items", .array [.uint 2, .uint 3, .uint 4])]).Indexed := by
    have hsmall : 2 ≤ wordLimit ∧ 3 ≤ wordLimit := by decide
    simpa [Value.indexed_record, Value.indexed_array, Value.indexed_uint] using hsmall
  have hok : (Schema.log.plan (.dotted "") (.record [("count", .uint 1),
      ("items", .array [.uint 2, .uint 3, .uint 4])])).isOk = true := by decide +kernel
  cases hplan : Schema.log.plan (.dotted "")
      (.record [("count", .uint 1), ("items", .array [.uint 2, .uint 3, .uint 4])]) with
  | error e =>
    rw [hplan] at hok
    cases hok
  | ok plan =>
    obtain ⟨path, layout, image⟩ := plan
    obtain ⟨hpath, hlayout, -⟩ := Schema.plan_eq_ok hplan
    obtain rfl : Path.root = path := Except.ok.inj hpath
    obtain rfl : Layout.record .log = layout := Except.ok.inj hlayout
    exact set_eq_requests Schema.log_compiled reached_emptyLog trivial hplan hindexed
      (by decide +kernel)

end Store

end RecordFile
