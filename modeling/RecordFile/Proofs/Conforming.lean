import Mathlib
import RecordFile.Image

/-!
# Which values have an image

The values that conform to a type (`Layout.Conforms`) are those that have an image. The order in
which a record value names its fields does not matter, at any depth (`Value.Reordered`): the image is
the same. Both rest on what exactly makes the image of a record and that of an array
(`Layout.image_record_eq_ok_iff`, `Layout.image_array_eq_ok_iff`).
-/

namespace RecordFile

/-! ## Layouts -/

namespace Layout

mutual

/-- What holds of scalars, of records whose fields it holds of and of arrays whose elements it holds
of, holds of all layouts. -/
theorem induction {P : Layout → Prop} (scalar : ∀ kind, P (.scalar kind))
    (record : ∀ r : RecordLayout, (∀ f ∈ r.fields, P f.layout) → P (.record r))
    (array : ∀ a : ArrayLayout, P a.element → P (.array a)) : ∀ l : Layout, P l
  | .scalar kind => scalar kind
  | .record ⟨_, fields, _, _⟩ => record _ (induction_fields scalar record array fields)
  | .array ⟨element, _, _, _, _⟩ => array _ (induction scalar record array element)

theorem induction_fields {P : Layout → Prop} (scalar : ∀ kind, P (.scalar kind))
    (record : ∀ r : RecordLayout, (∀ f ∈ r.fields, P f.layout) → P (.record r))
    (array : ∀ a : ArrayLayout, P a.element → P (.array a)) :
    ∀ fields : List FieldLayout, ∀ f ∈ fields, P f.layout
  | [], _, hf => nomatch hf
  | ⟨_, layout, _⟩ :: rest, f, hf =>
    (List.mem_cons.mp hf).elim (fun heq => heq ▸ induction scalar record array layout)
      (induction_fields scalar record array rest f)

end

end Layout

/-! ## Images of records and arrays -/

/-- A list is gone through with success exactly if each item is. -/
theorem mapM_eq_ok_iff {α β : Type} {f : α → Except Error β} {items : List α} {results : List β} :
    items.mapM f = .ok results ↔ List.Forall₂ (fun x y => f x = .ok y) items results := by
  induction items generalizing results with
  | nil => cases results <;> simp [pure, Except.pure]
  | cons x items ih =>
    rw [List.mapM_cons]
    cases hx : f x with
    | error e => cases results <;> simp [bind, Except.bind, hx]
    | ok y =>
      cases hrest : items.mapM f with
      | error e => cases results <;> simp [bind, Except.bind, ← ih, hrest, hx]
      | ok ys => cases results <;> simp [bind, Except.bind, pure, Except.pure, ← ih, hrest, hx]

/-- Under distinct names, a name stands for a value exactly if the two are listed together. -/
theorem lookup_eq_some_iff_mem {supplied : List (String × Value)}
    (h : (supplied.map (·.1)).Nodup) {name : String} {v : Value} :
    supplied.lookup name = some v ↔ (name, v) ∈ supplied := by
  induction supplied with
  | nil => simp
  | cons p supplied ih =>
    obtain ⟨other, w⟩ := p
    rw [List.map_cons, List.nodup_cons] at h
    rw [List.lookup_cons, List.mem_cons]
    split
    · rename_i heq
      obtain rfl : name = other := by simpa using heq
      have hnot : (name, v) ∉ supplied := fun hmem =>
        h.1 (List.mem_map_of_mem (f := (·.1)) hmem)
      simp [hnot, eq_comm]
    · rename_i hne
      have hne : name ≠ other := by simpa using hne
      simp [ih h.2, hne]

namespace RecordLayout

/-- The names of a record value are names of fields, none of them twice. -/
structure Admits (r : RecordLayout) (supplied : List (String × Value)) : Prop where
  nodup : (supplied.map (·.1)).Nodup
  known : ∀ p ∈ supplied, ∃ f ∈ r.fields, f.name = p.1

variable {r : RecordLayout} {supplied : List (String × Value)}

theorem admits_cons_iff {name : String} {v : Value} :
    r.Admits ((name, v) :: supplied) ↔
      (∃ f ∈ r.fields, f.name = name) ∧ (∀ p ∈ supplied, p.1 ≠ name) ∧ r.Admits supplied := by
  constructor
  · rintro ⟨nodup, known⟩
    rw [List.map_cons, List.nodup_cons] at nodup
    obtain ⟨hname, known⟩ := List.forall_mem_cons.mp known
    exact ⟨hname, fun p hp heq => nodup.1 (heq ▸ List.mem_map_of_mem (f := (·.1)) hp),
      nodup.2, known⟩
  · rintro ⟨hname, hnew, nodup, known⟩
    refine ⟨?_, List.forall_mem_cons.mpr ⟨hname, known⟩⟩
    rw [List.map_cons, List.nodup_cons]
    refine ⟨fun hmem => ?_, nodup⟩
    obtain ⟨p, hp, heq⟩ := List.mem_map.mp hmem
    exact hnew p hp heq

/-- The names of a record value are accepted exactly if none is unknown or comes twice. -/
theorem checkNames_eq_ok_iff {seen : List String} :
    r.checkNames seen supplied = .ok () ↔
      r.Admits supplied ∧ ∀ p ∈ supplied, p.1 ∉ seen := by
  induction supplied generalizing seen with
  | nil => simpa [checkNames] using ⟨List.nodup_nil, nofun⟩
  | cons p supplied ih =>
    obtain ⟨name, v⟩ := p
    have hknown : (!r.fields.any (·.name = name)) = true ↔ ¬ ∃ f ∈ r.fields, f.name = name := by
      simp
    rw [checkNames, admits_cons_iff]
    split
    · rename_i hunknown
      exact ⟨nofun, fun h => absurd h.1.1 (hknown.mp hunknown)⟩
    rename_i hname
    replace hname := Decidable.not_not.mp (mt hknown.mpr hname)
    split
    · rename_i hseen
      exact ⟨nofun, fun h => absurd (by simpa using hseen) (h.2 _ List.mem_cons_self)⟩
    · rename_i hnew
      rw [ih]
      simp only [List.mem_cons, not_or, forall_eq_or_imp]
      constructor
      · rintro ⟨hadmits, hother⟩
        exact ⟨⟨hname, fun p hp => (hother p hp).1, hadmits⟩, by simpa using hnew,
          fun p hp => (hother p hp).2⟩
      · rintro ⟨⟨-, hother, hadmits⟩, -, hseen⟩
        exact ⟨hadmits, fun p hp => ⟨hother p hp, hseen p hp⟩⟩

end RecordLayout

namespace Layout

theorem fieldImages_eq_ok_iff {record : String} {supplied : List (String × Value)}
    {fields : List FieldLayout} {parts : List Image} :
    fieldImages record supplied fields = .ok parts ↔
      List.Forall₂ (fun f part => ∃ v, supplied.lookup f.name = some v ∧
        f.layout.image v = .ok part) fields parts := by
  induction fields generalizing parts with
  | nil => cases parts <;> simp [fieldImages]
  | cons f fields ih =>
    obtain ⟨name, layout, offset⟩ := f
    rw [fieldImages]
    cases hv : supplied.lookup name with
    | none => cases parts <;> simp [hv]
    | some v =>
      cases hpart : layout.image v with
      | error e => cases parts <;> simp [bind, Except.bind, hv, hpart]
      | ok part =>
        cases hrest : fieldImages record supplied fields with
        | error e => cases parts <;> simp [bind, Except.bind, ← ih, hrest, hv, hpart]
        | ok more => cases parts <;> simp [bind, Except.bind, ← ih, hrest, hv, hpart]

theorem image_scalar_eq_ok_iff {kind : Scalar} {v : Value} {image : Image} :
    (scalar kind).image v = .ok image ↔ ∃ bytes, kind.encode v = .ok bytes ∧ image = .run bytes := by
  rw [Layout.image]
  cases kind.encode v <;> simp [bind, Except.bind, eq_comm]

/-- The image of a record is made of those of its fields, each supplied once under its name. -/
theorem image_record_eq_ok_iff {r : RecordLayout} {v : Value} {image : Image} :
    (record r).image v = .ok image ↔
      ∃ supplied parts, v = .record supplied ∧ r.Admits supplied ∧
        List.Forall₂ (fun f part => ∃ w, (f.name, w) ∈ supplied ∧ f.layout.image w = .ok part)
          r.fields parts ∧
        image = match Image.merge? ((r.fields.map (·.layout.size)).zip parts) with
          | some bytes => .run bytes
          | none => .fields parts := by
  obtain ⟨name, fields, size, hasChain⟩ := r
  cases v with
  | record supplied =>
    constructor
    · intro h
      rw [Layout.image] at h
      cases hnames : RecordLayout.checkNames ⟨name, fields, size, hasChain⟩ [] supplied with
      | error e => simp [hnames, bind, Except.bind] at h
      | ok _ =>
        obtain ⟨hadmits, -⟩ := RecordLayout.checkNames_eq_ok_iff.mp hnames
        cases hparts : fieldImages name supplied fields with
        | error e => simp [hnames, hparts, bind, Except.bind] at h
        | ok parts =>
          have heach := fieldImages_eq_ok_iff.mp hparts
          simp only [lookup_eq_some_iff_mem hadmits.nodup] at heach
          refine ⟨supplied, parts, rfl, hadmits, heach, ?_⟩
          simp only [hnames, hparts, bind, Except.bind] at h
          split at h <;> simp_all
    · rintro ⟨_, parts, heq, hadmits, heach, rfl⟩
      cases heq
      simp only [← lookup_eq_some_iff_mem hadmits.nodup] at heach
      have hnames := RecordLayout.checkNames_eq_ok_iff.mpr ⟨hadmits, fun _ _ => List.not_mem_nil⟩
      rw [Layout.image, hnames, fieldImages_eq_ok_iff.mpr heach]
      simp only [bind, Except.bind]
      split <;> simp_all
  | bool _ => simp [Layout.image]
  | int _ => simp [Layout.image]
  | uint _ => simp [Layout.image]
  | float _ => simp [Layout.image]
  | array _ => simp [Layout.image]

/-- The image of an array is made of those of its elements. -/
theorem image_array_eq_ok_iff {a : ArrayLayout} {v : Value} {image : Image} :
    (array a).image v = .ok image ↔
      ∃ items parts, v = .array items ∧ (a.extent = .fixed → items.length ≤ a.capacity) ∧
        List.Forall₂ (fun w part => a.element.image w = .ok part) items parts ∧
        image = match a.extent with
          | .fixed => .ofSlots a.element.size parts
          | .chained =>
            .blocks ((Image.chunks a.capacity a.capacity_pos parts).map (.ofSlots a.element.size)) := by
  obtain ⟨element, capacity, extent, size, capacity_pos⟩ := a
  cases v with
  | array items =>
    rw [Layout.image]
    split
    · rename_i hlong
      constructor
      · nofun
      · rintro ⟨_, _, heq, hle, -⟩
        cases heq
        exact absurd hlong.2 (Nat.not_lt.mpr (hle hlong.1))
    rename_i hle
    have hle : extent = .fixed → items.length ≤ capacity := fun hext =>
      Nat.le_of_not_lt fun hlt => hle ⟨hext, hlt⟩
    constructor
    · intro h
      cases hparts : items.mapM element.image with
      | error e => simp [hparts, bind, Except.bind] at h
      | ok parts =>
        refine ⟨items, parts, rfl, hle, mapM_eq_ok_iff.mp hparts, ?_⟩
        simp only [hparts, bind, Except.bind] at h
        cases extent <;> exact (Except.ok.inj h).symm
    · rintro ⟨_, parts, heq, -, hparts, rfl⟩
      cases heq
      rw [mapM_eq_ok_iff.mpr hparts]
      cases extent <;> rfl
  | bool _ => simp [Layout.image]
  | int _ => simp [Layout.image]
  | uint _ => simp [Layout.image]
  | float _ => simp [Layout.image]
  | record _ => simp [Layout.image]

end Layout

/-! ## Values that conform -/

/-- The value is one that can be written to the type: a scalar that the kind encodes, a record that
names every field once and no other, or an array that is not too long. -/
inductive Layout.Conforms : Layout → Value → Prop
  | scalar {kind : Scalar} {v : Value} {bytes : ByteArray} (encoded : kind.encode v = .ok bytes) :
    Conforms (.scalar kind) v
  | record {r : RecordLayout} {supplied : List (String × Value)}
    (once : ∀ f ∈ r.fields, (supplied.map (·.1)).count f.name = 1)
    (known : ∀ p ∈ supplied, ∃ f ∈ r.fields, f.name = p.1)
    (each : ∀ f ∈ r.fields, ∀ v, (f.name, v) ∈ supplied → Conforms f.layout v) :
    Conforms (.record r) (.record supplied)
  | array {a : ArrayLayout} {items : List Value}
    (length_le : a.extent = .fixed → items.length ≤ a.capacity)
    (each : ∀ v ∈ items, Conforms a.element v) : Conforms (.array a) (.array items)

/-- The values differ at most in the order of the fields of records, at any depth. -/
inductive Value.Reordered : Value → Value → Prop
  | refl (v : Value) : Reordered v v
  | trans {v w x : Value} (first : Reordered v w) (second : Reordered w x) : Reordered v x
  | fields {supplied supplied' : List (String × Value)} (perm : supplied.Perm supplied') :
    Reordered (.record supplied) (.record supplied')
  | field {name : String} {v w : Value} (below : Reordered v w) (front back : List (String × Value)) :
    Reordered (.record (front ++ (name, v) :: back)) (.record (front ++ (name, w) :: back))
  | item {v w : Value} (below : Reordered v w) (front back : List Value) :
    Reordered (.array (front ++ v :: back)) (.array (front ++ w :: back))

theorem forall₂_exists_iff {α β : Type} {R : α → β → Prop} {items : List α} :
    (∃ results, List.Forall₂ R items results) ↔ ∀ x ∈ items, ∃ y, R x y := by
  induction items with
  | nil => simp
  | cons x items ih =>
    rw [List.forall_mem_cons, ← ih]
    constructor
    · rintro ⟨_, h⟩
      cases h with | cons hx hrest => exact ⟨⟨_, hx⟩, _, hrest⟩
    · rintro ⟨⟨y, hy⟩, ys, hys⟩
      exact ⟨y :: ys, .cons hy hys⟩

namespace Layout

theorem exists_image_record_iff {r : RecordLayout} {v : Value} :
    (∃ image, (record r).image v = .ok image) ↔
      ∃ supplied, v = .record supplied ∧ r.Admits supplied ∧
        ∀ f ∈ r.fields, ∃ w, (f.name, w) ∈ supplied ∧ ∃ part, f.layout.image w = .ok part := by
  simp only [image_record_eq_ok_iff]
  constructor
  · rintro ⟨_, supplied, parts, rfl, hadmits, heach, -⟩
    refine ⟨supplied, rfl, hadmits, fun f hf => ?_⟩
    obtain ⟨part, w, hw, hpart⟩ := forall₂_exists_iff.mp ⟨parts, heach⟩ f hf
    exact ⟨w, hw, part, hpart⟩
  · rintro ⟨supplied, rfl, hadmits, heach⟩
    have heach : ∀ f ∈ r.fields, ∃ part w, (f.name, w) ∈ supplied ∧ f.layout.image w = .ok part :=
      fun f hf => by
        obtain ⟨w, hw, part, hpart⟩ := heach f hf
        exact ⟨part, w, hw, hpart⟩
    obtain ⟨parts, hparts⟩ := forall₂_exists_iff.mpr heach
    exact ⟨_, supplied, parts, rfl, hadmits, hparts, rfl⟩

theorem exists_image_array_iff {a : ArrayLayout} {v : Value} :
    (∃ image, (array a).image v = .ok image) ↔
      ∃ items, v = .array items ∧ (a.extent = .fixed → items.length ≤ a.capacity) ∧
        ∀ w ∈ items, ∃ part, a.element.image w = .ok part := by
  simp only [image_array_eq_ok_iff]
  constructor
  · rintro ⟨_, items, parts, rfl, hle, heach, -⟩
    exact ⟨items, rfl, hle, forall₂_exists_iff.mp ⟨parts, heach⟩⟩
  · rintro ⟨items, rfl, hle, heach⟩
    obtain ⟨parts, hparts⟩ := forall₂_exists_iff.mpr heach
    exact ⟨_, items, parts, rfl, hle, hparts, rfl⟩

end Layout

namespace RecordLayout

variable {r : RecordLayout} {supplied : List (String × Value)}

theorem Admits.count_eq_one (h : r.Admits supplied) {name : String} {v : Value}
    (hv : (name, v) ∈ supplied) : (supplied.map (·.1)).count name = 1 :=
  List.count_eq_one_of_mem h.nodup (List.mem_map_of_mem (f := (·.1)) hv)

theorem Admits.of_count (once : ∀ f ∈ r.fields, (supplied.map (·.1)).count f.name = 1)
    (known : ∀ p ∈ supplied, ∃ f ∈ r.fields, f.name = p.1) : r.Admits supplied where
  nodup := by
    refine List.nodup_iff_count_le_one.mpr fun name => ?_
    by_cases hname : name ∈ supplied.map (·.1)
    · obtain ⟨p, hp, rfl⟩ := List.mem_map.mp hname
      obtain ⟨f, hf, hname⟩ := known p hp
      exact Nat.le_of_eq (hname ▸ once f hf)
    · exact (List.count_eq_zero_of_not_mem hname).trans_le (Nat.zero_le 1)
  known := known

theorem Admits.value_unique (h : r.Admits supplied) {name : String} {v w : Value}
    (hv : (name, v) ∈ supplied) (hw : (name, w) ∈ supplied) : v = w :=
  Option.some.inj (((lookup_eq_some_iff_mem h.nodup).mpr hv).symm.trans
    ((lookup_eq_some_iff_mem h.nodup).mpr hw))

end RecordLayout

namespace Layout

/-- The values that have an image are those that conform. -/
theorem exists_image_iff (l : Layout) (v : Value) :
    (∃ image, l.image v = .ok image) ↔ l.Conforms v := by
  induction l using Layout.induction generalizing v with
  | scalar kind =>
    simp only [image_scalar_eq_ok_iff]
    constructor
    · rintro ⟨_, bytes, hbytes, -⟩
      exact .scalar hbytes
    · rintro ⟨hbytes⟩
      exact ⟨_, _, hbytes, rfl⟩
  | record r ih =>
    rw [exists_image_record_iff]
    constructor
    · rintro ⟨supplied, rfl, hadmits, heach⟩
      refine .record (fun f hf => ?_) hadmits.known fun f hf v hv => ?_
      · obtain ⟨w, hw, -⟩ := heach f hf
        exact hadmits.count_eq_one hw
      · obtain ⟨w, hw, hpart⟩ := heach f hf
        exact hadmits.value_unique hv hw ▸ (ih f hf w).mp hpart
    · rintro (_ | ⟨once, known, each⟩)
      refine ⟨_, rfl, .of_count once known, fun f hf => ?_⟩
      have hmem := List.count_pos_iff.mp (Nat.lt_of_lt_of_eq Nat.zero_lt_one (once f hf).symm)
      obtain ⟨⟨name, w⟩, hw, rfl⟩ := List.mem_map.mp hmem
      exact ⟨w, hw, (ih f hf w).mpr (each f hf w hw)⟩
  | array a ih =>
    rw [exists_image_array_iff]
    constructor
    · rintro ⟨items, rfl, hle, heach⟩
      exact .array hle fun w hw => (ih w).mp (heach w hw)
    · rintro (_ | _ | ⟨hle, each⟩)
      exact ⟨_, rfl, hle, fun w hw => (ih w).mpr (each w hw)⟩

end Layout

/-! ## Reordered values -/

namespace Value.Reordered

theorem symm {v w : Value} (h : Reordered v w) : Reordered w v := by
  induction h with
  | refl v => exact .refl v
  | trans _ _ ih ih' => exact .trans ih' ih
  | fields perm => exact .fields perm.symm
  | field _ front back ih => exact .field ih front back
  | item _ front back ih => exact .item ih front back

end Value.Reordered

/-- One item of a list may be replaced by another one that is related to all that it is. -/
theorem forall₂_replace {α β : Type} {R : α → β → Prop} {x x' : α} (h : ∀ y, R x y → R x' y)
    {front back : List α} {results : List β} (hall : List.Forall₂ R (front ++ x :: back) results) :
    List.Forall₂ R (front ++ x' :: back) results := by
  induction front generalizing results with
  | nil =>
    cases hall with | cons hx hrest => exact .cons (h _ hx) hrest
  | cons y front ih =>
    cases hall with | cons hy hrest => exact .cons hy (ih hrest)

/-- A record is no scalar. -/
theorem Scalar.encode_record (kind : Scalar) (fields : List (String × Value)) :
    kind.encode (.record fields) = .error (kind.mismatch (.record fields)) := by
  cases kind <;> rfl

/-- An array is no scalar. -/
theorem Scalar.encode_array (kind : Scalar) (items : List Value) :
    kind.encode (.array items) = .error (kind.mismatch (.array items)) := by
  cases kind <;> rfl

namespace Layout

variable {image : Image}

/-- The image of a record only depends on what it names and on the images of the values. -/
theorem image_record_congr {r : RecordLayout} {supplied supplied' : List (String × Value)}
    (hnames : (supplied.map (·.1)).Perm (supplied'.map (·.1)))
    (heach : ∀ name v, (name, v) ∈ supplied → ∃ w, (name, w) ∈ supplied' ∧
      ∀ (l : Layout) (part : Image), l.image v = .ok part → l.image w = .ok part)
    (h : (record r).image (.record supplied) = .ok image) :
    (record r).image (.record supplied') = .ok image := by
  obtain ⟨_, parts, heq, ⟨nodup, known⟩, hparts, rfl⟩ := image_record_eq_ok_iff.mp h
  cases heq
  refine image_record_eq_ok_iff.mpr ⟨supplied', parts, rfl, ⟨hnames.nodup_iff.mp nodup, ?_⟩, ?_, rfl⟩
  · intro p hp
    obtain ⟨q, hq, hname⟩ := List.mem_map.mp (hnames.mem_iff.mpr (List.mem_map_of_mem hp))
    exact hname ▸ known q hq
  · refine hparts.imp fun f part ⟨v, hv, hpart⟩ => ?_
    obtain ⟨w, hw, himage⟩ := heach f.name v hv
    exact ⟨w, hw, himage f.layout part hpart⟩

/-- Values that differ at most in the order of fields have the same image. -/
theorem image_of_reordered {v w : Value} (h : v.Reordered w) (l : Layout) {image : Image}
    (himage : l.image v = .ok image) : l.image w = .ok image := by
  induction h generalizing l image with
  | refl v => exact himage
  | trans _ _ ih ih' => exact ih' l (ih l himage)
  | @fields supplied supplied' perm =>
    cases l with
    | scalar kind =>
      obtain ⟨_, hbytes, -⟩ := image_scalar_eq_ok_iff.mp himage
      cases (kind.encode_record supplied).symm.trans hbytes
    | record r =>
      exact image_record_congr (perm.map _)
        (fun name v hv => ⟨v, perm.mem_iff.mp hv, fun _ _ h => h⟩) himage
    | array a =>
      obtain ⟨_, _, heq, -⟩ := image_array_eq_ok_iff.mp himage
      cases heq
  | @field name v w _ front back ih =>
    cases l with
    | scalar kind =>
      obtain ⟨_, hbytes, -⟩ := image_scalar_eq_ok_iff.mp himage
      cases (kind.encode_record _).symm.trans hbytes
    | record r =>
      refine image_record_congr (by simp) (fun other x hx => ?_) himage
      rcases List.mem_append.mp hx with hx | hx
      · exact ⟨x, List.mem_append_left _ hx, fun _ _ h => h⟩
      rcases List.mem_cons.mp hx with heq | hx
      · obtain ⟨rfl, rfl⟩ := Prod.mk.inj heq
        exact ⟨w, by simp, fun l _ h => ih l h⟩
      · exact ⟨x, by simp [hx], fun _ _ h => h⟩
    | array a =>
      obtain ⟨_, _, heq, -⟩ := image_array_eq_ok_iff.mp himage
      cases heq
  | @item v w _ front back ih =>
    cases l with
    | scalar kind =>
      obtain ⟨_, hbytes, -⟩ := image_scalar_eq_ok_iff.mp himage
      cases (kind.encode_array _).symm.trans hbytes
    | record r =>
      obtain ⟨_, _, heq, -⟩ := image_record_eq_ok_iff.mp himage
      cases heq
    | array a =>
      obtain ⟨_, parts, heq, hle, hparts, rfl⟩ := image_array_eq_ok_iff.mp himage
      cases heq
      exact image_array_eq_ok_iff.mpr ⟨_, parts, rfl, by simpa using hle,
        forall₂_replace (fun _ hpart => ih a.element hpart) hparts, rfl⟩

/-- The values that have an image are those that conform to the type, and the order of the fields of
records does not matter. -/
theorem image_conforms (l : Layout) :
    (∀ v, (∃ image, l.image v = .ok image) ↔ l.Conforms v) ∧
      ∀ v w, v.Reordered w → ∀ image, l.image v = .ok image ↔ l.image w = .ok image :=
  ⟨l.exists_image_iff, fun _ _ h _ => ⟨image_of_reordered h l, image_of_reordered h.symm l⟩⟩

end Layout

end RecordFile
