import RecordFile.Proofs.Conforming
import RecordFile.Proofs.File.Places
import RecordFile.Proofs.Scalar.Codec
import RecordFile.Proofs.Tree

/-!
# What images are made of

An accepted value has an image of the form of its type: a scalar has its encoding, a record the
images of its fields, an array those of its elements, cut into blocks if it is chained
(`Layout.image_record_ok`, `image_array_ok`). Merging does not change what is written: a merged run is
the runs of the parts, one after the other (`Image.merge?_cons`).
-/

namespace RecordFile

/-- The images of values of some types, the first ones of the row. -/
inductive RowImages : List Layout → List Value → List Image → Prop
  | nil (row : List Layout) : RowImages row [] []
  | cons {l : Layout} {row : List Layout} {v : Value} {vs : List Value} {part : Image}
    {parts : List Image} (head : l.image v = .ok part) (tail : RowImages row vs parts) :
    RowImages (l :: row) (v :: vs) (part :: parts)

namespace RowImages

theorem length_eq {row : List Layout} {vs : List Value} {parts : List Image}
    (h : RowImages row vs parts) : parts.length = vs.length := by
  induction h with
  | nil row => rfl
  | cons _ _ ih => exact congrArg (· + 1) ih

theorem length_le {row : List Layout} {vs : List Value} {parts : List Image}
    (h : RowImages row vs parts) : parts.length ≤ row.length := by
  induction h with
  | nil row => exact Nat.zero_le _
  | cons _ _ ih => exact Nat.succ_le_succ ih

/-- The images of the elements of an array. -/
theorem of_items {l : Layout} {items : List Value} {parts : List Image}
    (h : List.Forall₂ (fun v part => l.image v = .ok part) items parts) :
    RowImages (List.replicate items.length l) items parts := by
  induction h with
  | nil => exact .nil _
  | cons head _ ih => exact .cons head ih

/-- The images of the fields of a record. -/
theorem of_fields {supplied : List (String × Value)} {fields : List FieldLayout} {parts : List Image}
    (h : List.Forall₂ (fun f part => ∃ v, supplied.lookup f.name = some v ∧
      f.layout.image v = .ok part) fields parts) :
    ∃ vs, fields.map (fun f => supplied.lookup f.name) = vs.map some ∧
      RowImages (fields.map (·.layout)) vs parts := by
  induction h with
  | nil => exact ⟨[], rfl, .nil _⟩
  | cons head _ ih =>
    obtain ⟨v, hv, hpart⟩ := head
    obtain ⟨vs, hvs, himages⟩ := ih
    exact ⟨v :: vs, by simp [hv, hvs], .cons hpart himages⟩

/-- A part of the images of elements, in a row of places for at least that many. -/
theorem slice {l : Layout} {m n : Nat} {vs : List Value} {parts : List Image}
    (h : RowImages (List.replicate m l) vs parts) (hle : vs.length ≤ n) :
    RowImages (List.replicate n l) vs parts := by
  induction vs generalizing m n parts with
  | nil =>
    obtain rfl := List.eq_nil_of_length_eq_zero h.length_eq
    exact .nil _
  | cons v vs ih =>
    obtain _ | n := n
    · cases hle
    generalize hrow : List.replicate m l = row at h
    cases h with
    | cons hv htail =>
      obtain _ | m := m
      · cases hrow
      · obtain ⟨rfl, rfl⟩ : _ ∧ _ := by simpa [List.replicate_succ] using hrow
        exact .cons hv (ih htail (Nat.le_of_succ_le_succ hle))

theorem take {row : List Layout} {vs : List Value} {parts : List Image}
    (h : RowImages row vs parts) (n : Nat) : RowImages row (vs.take n) (parts.take n) := by
  induction h generalizing n with
  | nil row => simpa using RowImages.nil row
  | cons hv _ ih =>
    cases n with
    | zero => exact .nil _
    | succ n => exact .cons hv (ih n)

theorem drop {l : Layout} {m : Nat} {vs : List Value} {parts : List Image}
    (h : RowImages (List.replicate m l) vs parts) (n : Nat) :
    RowImages (List.replicate m l) (vs.drop n) (parts.drop n) := by
  induction n generalizing m vs parts with
  | zero => exact h
  | succ n ih =>
    generalize hrow : List.replicate m l = row at h
    cases h with
    | nil => exact .nil _
    | cons hv htail =>
      obtain _ | m := m
      · cases hrow
      · obtain ⟨rfl, rfl⟩ : _ ∧ _ := by simpa [List.replicate_succ] using hrow
        have hlen := htail.length_eq
        have hlen' := htail.length_le
        rw [List.length_replicate] at hlen'
        refine (ih htail).slice (n := m + 1) ?_
        rw [List.length_drop]
        omega

end RowImages

/-! ## Merging -/

namespace Image

theorem mergeInto?_eq {bytes : ByteArray} {parts : List (Nat × Image)} :
    mergeInto? bytes parts = (merge? parts).map (bytes ++ ·) := by
  have hempty (more : ByteArray) : ByteArray.empty ++ more = more := ByteArray.empty_append
  induction parts generalizing bytes with
  | nil => simp [mergeInto?, merge?]
  | cons p parts ih =>
    obtain ⟨size, part⟩ := p
    rw [merge?, mergeInto?, mergeInto?]
    cases part.covering? size with
    | none => rfl
    | some more =>
      simp only [Option.bind_eq_bind, Option.bind_some]
      rw [ih, @ih (ByteArray.empty ++ more), Option.map_map, hempty]
      congr 1
      funext rest
      exact ByteArray.append_assoc

/-- Merging goes through the parts one after the other. -/
theorem merge?_cons_eq (size : Nat) (part : Image) (parts : List (Nat × Image)) :
    merge? ((size, part) :: parts) =
      (part.covering? size).bind fun first => (merge? parts).map (first ++ ·) := by
  rw [merge?, mergeInto?]
  cases part.covering? size with
  | none => rfl
  | some first =>
    show mergeInto? (ByteArray.empty ++ first) parts = _
    rw [ByteArray.empty_append, mergeInto?_eq]
    rfl

/-- A merged run is a run that fills its place and the merged rest behind it. -/
theorem merge?_cons {size : Nat} {part : Image} {parts : List (Nat × Image)} {bytes : ByteArray}
    (h : merge? ((size, part) :: parts) = some bytes) :
    ∃ first more, part = run first ∧ first.size = size ∧ merge? parts = some more ∧
      bytes = first ++ more := by
  rw [merge?_cons_eq] at h
  obtain ⟨first, hfirst, h⟩ := Option.bind_eq_some_iff.mp h
  obtain ⟨more, hmore, rfl⟩ := Option.map_eq_some_iff.mp h
  cases part with
  | run data =>
    rw [covering?] at hfirst
    split at hfirst
    · obtain rfl := Option.some.inj hfirst
      exact ⟨data, more, rfl, ‹_›, hmore, rfl⟩
    · cases hfirst
  | fields parts => cases hfirst
  | slots parts => cases hfirst
  | blocks parts => cases hfirst

/-- A run that fills its place is merged with what is behind it. -/
theorem merge?_cons_run {parts : List (Nat × Image)} {first more : ByteArray}
    (h : merge? parts = some more) :
    merge? ((first.size, run first) :: parts) = some (first ++ more) := by
  rw [merge?_cons_eq, covering?, if_pos rfl, h]
  rfl

theorem merge?_nil {bytes : ByteArray} (h : merge? [] = some bytes) : bytes = ByteArray.empty :=
  (Option.some.inj h).symm

theorem chunks_nil {α : Type} {capacity : Nat} {h : 0 < capacity} :
    chunks capacity h ([] : List α) = [] := by
  rw [chunks, if_pos rfl]

theorem chunks_of_ne_nil {α : Type} {capacity : Nat} {h : 0 < capacity} {items : List α}
    (hne : items ≠ []) : chunks capacity h items =
      items.take capacity :: chunks capacity h (items.drop capacity) := by
  rw [chunks, if_neg hne]

end Image

theorem replicate_zip {α β : Type} {n : Nat} {x : α} {items : List β} (h : items.length ≤ n) :
    (List.replicate n x).zip items = items.map (x, ·) := by
  induction items generalizing n with
  | nil => simp
  | cons b items ih =>
    cases n with
    | zero => cases h
    | succ n => simp [List.replicate_succ, ih (Nat.le_of_succ_le_succ h)]

namespace Image

/-- A merged run does not reach past its row. -/
theorem size_of_merge {start stop : Nat} {row : List (Layout × Nat)} (hrow : RowPacked start row stop)
    {parts : List Image} {bytes : ByteArray}
    (h : merge? ((row.map (·.1.size)).zip parts) = some bytes) : start + bytes.size ≤ stop := by
  induction row generalizing start parts bytes with
  | nil =>
    obtain rfl := merge?_nil h
    exact hrow.le
  | cons p row ih =>
    obtain ⟨rfl, hrow⟩ := hrow
    cases parts with
    | nil =>
      obtain rfl := merge?_nil h
      exact Nat.le_trans (Nat.le_add_right ..) hrow.le
    | cons part parts =>
      obtain ⟨first, more, -, hfirst, hmore, rfl⟩ := merge?_cons h
      have := ih hrow hmore
      replace hfirst : first.size = p.1.size := hfirst
      rw [ByteArray.size_append]
      omega

/-- The slots of a block are a row. -/
theorem merge?_slots_eq {a : ArrayLayout} (block : Nat) {parts : List Image}
    (hlen : parts.length ≤ a.capacity) :
    merge? (((a.places block).map (·.1.size)).zip parts) = merge? (parts.map (a.element.size, ·)) := by
  rw [a.map_places block Layout.size, replicate_zip hlen]

/-- Merged slots are a merged row. -/
theorem merge?_of_slots {a : ArrayLayout} (block : Nat) {parts : List Image} {bytes : ByteArray}
    (hlen : parts.length ≤ a.capacity) (h : ofSlots a.element.size parts = .run bytes) :
    merge? (((a.places block).map (·.1.size)).zip parts) = some bytes := by
  rw [merge?_slots_eq block hlen]
  rw [ofSlots] at h
  split at h
  · cases h
    assumption
  · cases h

/-- Slots that are not merged are written as they are. -/
theorem ofSlots_cases (slotSize : Nat) (parts : List Image) :
    (∃ bytes, ofSlots slotSize parts = .run bytes) ∨ ofSlots slotSize parts = .slots parts := by
  rw [ofSlots]
  split
  · exact .inl ⟨_, rfl⟩
  · exact .inr rfl

end Image

/-! ## Images by type -/

namespace Layout

theorem image_record_ok {r : RecordLayout} {v : Value} {image : Image}
    (h : (record r).image v = .ok image) :
    ∃ supplied vs parts, v = .record supplied ∧
      r.fields.map (fun f => supplied.lookup f.name) = vs.map some ∧
      RowImages (r.fields.map (·.layout)) vs parts ∧
      image = match Image.merge? ((r.fields.map (·.layout.size)).zip parts) with
        | some bytes => .run bytes
        | none => .fields parts := by
  obtain ⟨supplied, parts, rfl, hadmits, hparts, rfl⟩ := image_record_eq_ok_iff.mp h
  simp only [← lookup_eq_some_iff_mem hadmits.nodup] at hparts
  obtain ⟨vs, hvs, himages⟩ := RowImages.of_fields hparts
  exact ⟨supplied, vs, parts, rfl, hvs, himages, rfl⟩

theorem image_array_ok {a : ArrayLayout} {v : Value} {image : Image}
    (h : (array a).image v = .ok image) :
    ∃ items parts, v = .array items ∧ (a.extent = .fixed → items.length ≤ a.capacity) ∧
      RowImages (List.replicate items.length a.element) items parts ∧
      image = match a.extent with
        | .fixed => .ofSlots a.element.size parts
        | .chained =>
          .blocks ((Image.chunks a.capacity a.capacity_pos parts).map (.ofSlots a.element.size)) := by
  obtain ⟨items, parts, rfl, hle, hparts, rfl⟩ := image_array_eq_ok_iff.mp h
  exact ⟨items, parts, rfl, hle, .of_items hparts, rfl⟩

/-- A run does not reach past the place that it is made for. -/
theorem size_of_run {l : Layout} (hw : l.WellFormed) {v : Value} {bytes : ByteArray}
    (h : l.image v = .ok (.run bytes)) : bytes.size ≤ l.size := by
  cases hw with
  | scalar kind =>
    obtain ⟨bytes', hencode, heq⟩ := image_scalar_eq_ok_iff.mp h
    cases heq
    exact Nat.le_of_eq (Scalar.size_of_encode hencode)
  | @record r own _ =>
    obtain ⟨supplied, vs, parts, -, -, -, heq⟩ := image_record_ok h
    split at heq
    · rename_i hmerge
      cases heq
      rw [← r.map_places 0 Layout.size] at hmerge
      have := Image.size_of_merge (own.places_packed 0) hmerge
      show bytes.size ≤ r.size
      omega
    · cases heq
  | @array a own _ =>
    obtain ⟨items, parts, -, hlen, himages, heq⟩ := image_array_ok h
    cases hext : a.extent with
    | chained =>
      rw [hext] at heq
      cases heq
    | fixed =>
      rw [hext] at heq
      have hlen : parts.length ≤ a.capacity := himages.length_eq ▸ hlen hext
      have := Image.size_of_merge (a.places_packed 0) (Image.merge?_of_slots 0 hlen heq.symm)
      have := own.slotsSize_le
      show bytes.size ≤ a.size
      omega

end Layout

end RecordFile
