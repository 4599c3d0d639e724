import RecordFile.Proofs.Layout.Catalog

/-!
# Regular catalogs

What is true of a catalog after any sequence of definitions and compilations (`Catalog.Regular`):
its names are proper and pairwise distinct, the index is the inverse of the list of types, and every
type is built from types in front of it. `Regular.insert` is the step: a definition checks just what
it takes to add a type.

Every record in a schema that such a catalog compiles to has proper, pairwise distinct field names,
however deep it lies (`Schema.Compiled.named`).
-/

namespace RecordFile

/-! ## Built from earlier types -/

/-- The types in `types`, and arrays of them. -/
inductive Layout.MadeOf (types : List Layout) : Layout → Prop
  | known {l : Layout} (h : l ∈ types) : MadeOf types l
  | array {a : ArrayLayout} (h : MadeOf types a.element) : MadeOf types (.array a)

/-- The fields of a record and the elements of an array are made of `earlier` types. -/
def Layout.BuiltFrom (earlier : List Layout) : Layout → Prop
  | .scalar _ => True
  | .record r => ∀ f ∈ r.fields, f.layout.MadeOf earlier
  | .array a => a.element.MadeOf earlier

theorem Layout.MadeOf.arrayOf {types : List Layout} {base l : Layout} {suffixes : List ArraySuffix}
    (hb : base.MadeOf types) (h : base.arrayOf suffixes = .ok l) : l.MadeOf types := by
  induction suffixes generalizing base with
  | nil =>
    obtain rfl : base = l := by simpa [Layout.arrayOf] using h
    exact hb
  | cons suffix rest ih =>
    rw [Layout.arrayOf] at h
    cases ha : ArrayLayout.make? base suffix.capacity suffix.extent with
    | error e => simp [ha, bind, Except.bind] at h
    | ok a =>
      obtain ⟨rfl, -⟩ := ArrayLayout.make?_eq_ok ha
      exact ih (.array hb) (by simpa [ha, bind, Except.bind] using h)

theorem Layout.MadeOf.mono {types types' : List Layout} (hsub : types ⊆ types') {l : Layout}
    (h : l.MadeOf types) : l.MadeOf types' := by
  induction h with
  | known h => exact .known (hsub h)
  | array _ ih => exact .array ih

/-! ## Regular catalogs -/

/-- The names of the record's fields are proper and pairwise distinct. -/
structure RecordLayout.Named (r : RecordLayout) : Prop where
  nodup : (r.fields.map (·.name)).Nodup
  isName : ∀ f ∈ r.fields, Catalog.IsName f.name

/-- All records in a type have such field names. -/
def Layout.Named (l : Layout) : Prop := l.Every RecordLayout.Named fun _ => True

theorem Layout.MadeOf.named {types : List Layout} (hall : ∀ l ∈ types, l.Named) {l : Layout}
    (h : l.MadeOf types) : l.Named := by
  induction h with
  | known h => exact hall _ h
  | array _ ih => exact .array trivial ih

namespace Catalog

/-- The types in front of a position. -/
def before (c : Catalog) (i : Nat) : List Layout := (c.types.toList.take i).map (·.2)

/-- The names, the index and the types of a catalog fit together. -/
structure Regular (c : Catalog) : Prop where
  names_nodup : (c.types.toList.map (·.1)).Nodup
  isName : ∀ entry ∈ c.types, IsName entry.1
  /-- The index gives each name its position in the list. -/
  index_iff : ∀ (name : String) (i : Nat),
    c.index[name]? = some i ↔ ∃ l : Layout, c.types[i]? = some (name, l)
  builtFrom : ∀ (i : Nat) (name : String) (l : Layout),
    c.types[i]? = some (name, l) → l.BuiltFrom (c.before i)
  record : ∀ (name : String) (r : RecordLayout),
    (name, .record r) ∈ c.types → r.name = name ∧ r.Named

variable {c : Catalog}

namespace Regular

theorem empty (config : Config) : Regular ⟨config, #[], ∅, false⟩ where
  names_nodup := .nil
  isName := by simp
  index_iff := by simp
  builtFrom := by simp
  record := by simp

/-- A name stands for a type exactly if the two are listed together. -/
theorem lookup_eq_some_iff (h : c.Regular) {name : String} {l : Layout} :
    c.lookup name = some l ↔ (name, l) ∈ c.types := by
  rw [lookup]
  constructor
  · intro hl
    obtain ⟨i, hi, hl⟩ := Option.bind_eq_some_iff.mp hl
    obtain ⟨layout, hlayout⟩ := (h.index_iff name i).mp hi
    obtain rfl : layout = l := by simpa [hlayout] using hl
    exact Array.mem_of_getElem? hlayout
  · intro hmem
    obtain ⟨i, hi⟩ := Array.getElem?_of_mem hmem
    simp [(h.index_iff name i).mpr ⟨l, hi⟩, hi]

/-- Looking a name up in the list finds what the index finds. -/
theorem lookup_toList (h : c.Regular) (name : String) :
    c.types.toList.lookup name = c.lookup name := by
  refine Option.ext fun l => ?_
  rw [h.lookup_eq_some_iff, ← Array.mem_toList_iff, List.lookup_eq_some_iff]
  constructor
  · rintro ⟨front, behind, heq, -⟩
    simp [heq]
  · intro hmem
    obtain ⟨front, behind, heq⟩ := List.append_of_mem hmem
    refine ⟨front, behind, heq, fun entry hentry => bne_iff_ne.mpr fun hname => ?_⟩
    have hnodup := h.names_nodup
    rw [heq, List.map_append, List.nodup_append] at hnodup
    exact hnodup.2.2 _ (List.mem_map_of_mem hentry) name (by simp) hname.symm

/-- The types of a catalog are made of themselves. -/
theorem madeOf_resolve (h : c.Regular) {text : String} {l : Layout} (hl : c.resolve text = .ok l) :
    l.MadeOf (c.types.toList.map (·.2)) := by
  obtain ⟨_, _, _, hbase, harray⟩ := resolve_eq_ok hl
  have hmem := Array.mem_toList_iff.mpr (h.lookup_eq_some_iff.mp hbase)
  exact .arrayOf (.known (List.mem_map_of_mem (f := (·.2)) hmem)) harray

/-- The elements of an array type are made of the types of the catalog. -/
theorem element_madeOf (h : c.Regular) {a : ArrayLayout}
    (ha : (Layout.array a).MadeOf (c.types.toList.map (·.2))) :
    a.element.MadeOf (c.types.toList.map (·.2)) := by
  cases ha with
  | known hmem =>
    obtain ⟨⟨name, _⟩, hentry, rfl⟩ := List.mem_map.mp hmem
    obtain ⟨i, hi⟩ := Array.getElem?_of_mem (Array.mem_toList_iff.mp hentry)
    exact (h.builtFrom i name _ hi).mono (List.map_subset _ (List.take_subset i _))
  | array helement => exact helement

/-- A new type under a proper name that is not taken, built from the types there are, keeps the
catalog regular. -/
theorem insert (h : c.Regular) {name : String} {l : Layout} (hname : IsName name)
    (hfree : c.index[name]? = none) (hl : l.BuiltFrom (c.types.toList.map (·.2)))
    (hr : ∀ r, l = .record r → r.name = name ∧ r.Named) : (c.insert name l).Regular where
  names_nodup := by
    have hnew : ∀ entry ∈ c.types, entry.1 ≠ name := by
      rintro ⟨other, l'⟩ hentry rfl
      obtain ⟨i, hi⟩ := Array.getElem?_of_mem hentry
      rw [(h.index_iff other i).mpr ⟨l', hi⟩] at hfree
      cases hfree
    rw [Catalog.insert, Array.toList_push, List.map_append, List.nodup_append]
    refine ⟨h.names_nodup, List.nodup_singleton _, ?_⟩
    simpa using fun other l' hentry => hnew (other, l') hentry
  isName entry hentry := by
    rcases Array.mem_push.mp hentry with hentry | rfl
    · exact h.isName entry hentry
    · exact hname
  index_iff other i := by
    rw [Catalog.insert, Std.HashMap.getElem?_insert]
    simp only [Array.getElem?_push, beq_iff_eq]
    have hiff := h.index_iff other i
    have hsize : c.types[c.types.size]? = none := Array.getElem?_eq_none (Nat.le_refl _)
    by_cases hother : name = other <;> by_cases hi : i = c.types.size <;> simp_all
    exact fun heq => hi heq.symm
  builtFrom i other l' hi := by
    rw [Catalog.insert, Array.getElem?_push] at hi
    rw [before, Catalog.insert, Array.toList_push]
    split at hi
    · rename_i hlast
      obtain ⟨rfl, rfl⟩ : name = other ∧ l = l' := by simpa using hi
      rw [hlast, List.take_left' (by simp)]
      exact hl
    · obtain ⟨hlt, -⟩ := Array.getElem?_eq_some_iff.mp hi
      rw [List.take_append_of_le_length (by simpa using Nat.le_of_lt hlt)]
      exact h.builtFrom i other l' hi
  record other r hmem := by
    rcases Array.mem_push.mp hmem with hmem | heq
    · exact h.record other r hmem
    · cases heq
      exact hr r rfl

/-! ### Operations -/

theorem define (h : c.Regular) (name : String) (fields : List (String × String)) :
    (c.define name fields).2.Regular := by
  obtain ⟨e, heq⟩ | ⟨resolved, r, hdef, hfields, hr, heq⟩ := c.define_cases name fields <;> rw [heq]
  · exact h
  obtain ⟨-, hname, hfree⟩ := checkDefinable_eq_ok_iff.mp hdef
  obtain ⟨hrname, -, hown⟩ := RecordLayout.make?_eq_ok hr
  have heach := (resolveFields_eq_ok hfields).2
  refine h.insert hname hfree (fun f hf => ?_) fun r' hr' => ?_
  · obtain ⟨-, _, hl⟩ := heach _ (RecordLayout.mem_of_make? hr hf)
    exact h.madeOf_resolve hl
  · cases hr'
    exact ⟨hrname, hown.nodup, fun f hf => (heach _ (RecordLayout.mem_of_make? hr hf)).1⟩

theorem defineArray (h : c.Regular) (name text : String) : (c.defineArray name text).2.Regular := by
  obtain ⟨e, heq⟩ | ⟨a, hdef, ha, heq⟩ := c.defineArray_cases name text <;> rw [heq]
  · exact h
  obtain ⟨-, hname, hfree⟩ := checkDefinable_eq_ok_iff.mp hdef
  exact h.insert hname hfree (h.element_madeOf (h.madeOf_resolve ha)) nofun

theorem compile (h : c.Regular) (root : String) : (c.compile root).2.Regular := by
  obtain ⟨e, heq⟩ | ⟨r, -, -, -, heq⟩ := c.compile_cases root <;> rw [heq]
  · exact h
  · exact ⟨h.names_nodup, h.isName, h.index_iff, h.builtFrom, h.record⟩

/-- Scalar kinds can be added under proper names that are pairwise distinct and not taken. -/
theorem foldl_insert (h : c.Regular) (named : List (String × Scalar))
    (hnodup : (named.map (·.1)).Nodup)
    (hnamed : ∀ p ∈ named, IsName p.1 ∧ c.index[p.1]? = none) :
    (named.foldl (fun c p => c.insert p.1 (.scalar p.2)) c).Regular := by
  induction named generalizing c with
  | nil => exact h
  | cons p named ih =>
    obtain ⟨hname, hfree⟩ := hnamed p List.mem_cons_self
    rw [List.map_cons, List.nodup_cons] at hnodup
    refine ih (h.insert hname hfree trivial nofun) hnodup.2 fun q hq => ?_
    have hne : p.1 ≠ q.1 := fun heq => hnodup.1 (heq ▸ List.mem_map_of_mem hq)
    obtain ⟨hqname, hqfree⟩ := hnamed q (List.mem_cons_of_mem _ hq)
    exact ⟨hqname, by simp [Catalog.insert, Std.HashMap.getElem?_insert, hne, hqfree]⟩

theorem new (config : Config) : (Catalog.new config).Regular :=
  (empty config).foldl_insert _ (by decide +kernel) fun p hp =>
    ⟨(by decide +kernel : ∀ p ∈ Scalar.all.map (fun k => (k.name, k)) ++ Scalar.aliases, IsName p.1)
      p hp, by simp⟩

end Regular

/-- Whatever is defined, a catalog is regular. -/
theorem Built.regular (h : c.Built) : c.Regular := by
  induction h with
  | new config => exact .new config
  | define _ name fields ih => exact ih.define name fields
  | defineArray _ name text ih => exact ih.defineArray name text
  | compile _ root ih => exact ih.compile root

/-- The field names in all types of a regular catalog are proper. -/
theorem Regular.named (h : c.Regular) {name : String} {l : Layout} (hl : (name, l) ∈ c.types) :
    l.Named := by
  obtain ⟨i, hi⟩ := Array.getElem?_of_mem hl
  clear hl
  -- a type is built from those in front of it: induction on the position
  induction i using Nat.strongRecOn generalizing name l with
  | ind i ih =>
    have hbefore : ∀ l' ∈ c.before i, l'.Named := by
      intro l' hl'
      obtain ⟨⟨name', _⟩, hentry, rfl⟩ := List.mem_map.mp hl'
      obtain ⟨j, hj⟩ := List.mem_iff_getElem?.mp hentry
      rw [List.getElem?_take] at hj
      split at hj
      · exact ih j ‹_› (by simpa using hj)
      · cases hj
    have hbuilt := h.builtFrom i name l hi
    cases l with
    | scalar kind => exact .scalar kind
    | record r =>
      exact .record (h.record name r (Array.mem_of_getElem? hi)).2 fun f hf =>
        (hbuilt f hf).named hbefore
    | array a => exact .array trivial (hbuilt.named hbefore)

end Catalog

theorem Schema.Compiled.named {schema : Schema} (h : schema.Compiled) : schema.rootLayout.Named := by
  obtain ⟨c, hc, root, hroot, -⟩ := h.root_eq
  exact hc.regular.named (hc.regular.lookup_eq_some_iff.mp hroot)

end RecordFile
