import RecordFile.Proofs.Catalog.Expressions

/-!
# Sizes are exact

The size of a type over the natural numbers (`Layout.exactSize`) is that of its scalars, summed over
the fields of records and multiplied by the capacities of arrays, each chained array with a link behind
it. The sizes and offsets that layouts hold are these, and all of them are words
(`Layout.WellFormed.exact`).

Nothing is refused but what is too large: known types in arrays of valid capacities
(`Catalog.Denotes`) resolve unless one of the arrays is past the words, and fields of such types make a
record unless their sizes are, one by one or together (`Catalog.sizes_exact`).
-/

namespace RecordFile

/-! ## Exact sizes -/

mutual

/-- The bytes of the type in place, however many. -/
def Layout.exactSize : Layout → Nat
  | .scalar kind => kind.width
  | .record ⟨_, fields, _, _⟩ => FieldLayout.exactSizes fields
  | .array ⟨element, capacity, extent, _, _⟩ =>
    ArraySuffix.sizeOf ⟨capacity, extent⟩ element.exactSize

/-- The bytes of fields, one after the other. -/
def FieldLayout.exactSizes : List FieldLayout → Nat
  | [] => 0
  | ⟨_, layout, _⟩ :: rest => layout.exactSize + FieldLayout.exactSizes rest

end

/-- A chained array occurs in the type. -/
inductive Layout.Chains : Layout → Prop
  | here {a : ArrayLayout} (h : a.extent = .chained) : Chains (.array a)
  | element {a : ArrayLayout} (h : Chains a.element) : Chains (.array a)
  | field {r : RecordLayout} {f : FieldLayout} (hf : f ∈ r.fields) (h : Chains f.layout) :
    Chains (.record r)

/-- The numbers that a record layout holds are the exact ones: its size is the sum of the sizes of its
fields, and each field begins where the fields before it end. -/
structure RecordLayout.Exact (r : RecordLayout) : Prop where
  size_eq : r.size = (r.fields.map (·.layout.exactSize)).sum
  size_lt : r.size < wordLimit
  offset_eq : ∀ i f, r.fields[i]? = some f →
    f.offset = ((r.fields.take i).map (·.layout.exactSize)).sum
  le_size : ∀ f ∈ r.fields, f.offset + f.layout.exactSize ≤ r.size
  hasChain_iff : r.hasChain = true ↔ (Layout.record r).Chains

/-- The numbers that an array layout holds are the exact ones. -/
structure ArrayLayout.Exact (a : ArrayLayout) : Prop where
  size_eq : a.size = a.capacity * a.element.exactSize + (if a.extent = .chained then 8 else 0)
  size_lt : a.size < wordLimit
  capacity_pos : 1 ≤ a.capacity
  capacity_le : a.extent = .chained → a.capacity ≤ 1048576
  hasChain_iff : (Layout.array a).hasChain = true ↔ (Layout.array a).Chains

/-- The numbers that a layout and all its parts hold are the exact ones. -/
structure Layout.Exact (l : Layout) : Prop where
  size_eq : l.size = l.exactSize
  size_lt : l.size < wordLimit
  hasChain_iff : l.hasChain = true ↔ l.Chains
  parts : l.Every RecordLayout.Exact ArrayLayout.Exact

namespace FieldLayout

theorem exactSizes_eq (fields : List FieldLayout) :
    exactSizes fields = (fields.map (·.layout.exactSize)).sum := by
  induction fields with
  | nil => rw [exactSizes, List.map_nil, List.sum_nil]
  | cons f rest ih =>
    obtain ⟨name, layout, offset⟩ := f
    rw [exactSizes, ih, List.map_cons, List.sum_cons]

/-- Packed fields end at the sum of their sizes, and each begins at the sum of those before it. -/
theorem Packed.sum_eq {start stop : Nat} {fields : List FieldLayout} (h : Packed start fields stop) :
    start + (fields.map (·.layout.size)).sum = stop ∧
      ∀ i f, fields[i]? = some f → f.offset = start + ((fields.take i).map (·.layout.size)).sum := by
  induction fields generalizing start with
  | nil => exact ⟨h, nofun⟩
  | cons g rest ih =>
    obtain ⟨hg, hrest⟩ := h
    obtain ⟨hsum, heach⟩ := ih hrest
    refine ⟨by simp only [List.map_cons, List.sum_cons]; omega, fun i f hf => ?_⟩
    cases i with
    | zero =>
      obtain rfl := Option.some.inj hf
      exact hg
    | succ i =>
      rw [heach i f hf, List.take_succ_cons, List.map_cons, List.sum_cons, Nat.add_assoc]

end FieldLayout

namespace Layout

theorem exactSize_record (r : RecordLayout) :
    (record r).exactSize = (r.fields.map (·.layout.exactSize)).sum := by
  obtain ⟨name, fields, size, hasChain⟩ := r
  rw [exactSize, FieldLayout.exactSizes_eq]

theorem exactSize_array (a : ArrayLayout) :
    (array a).exactSize = ArraySuffix.sizeOf ⟨a.capacity, a.extent⟩ a.element.exactSize := by
  obtain ⟨element, capacity, extent, size, hpos⟩ := a
  rw [exactSize]

theorem hasChain_array (a : ArrayLayout) :
    (array a).hasChain = true ↔ a.extent = .chained ∨ a.element.hasChain = true := by
  obtain ⟨element, capacity, extent, size, hpos⟩ := a
  cases extent <;> simp [hasChain]

namespace WellFormed

variable {l : Layout}

theorem size_eq (h : l.WellFormed) : l.size = l.exactSize := by
  induction h with
  | scalar kind => rw [size, exactSize]
  | @record r own fields ih =>
    rw [exactSize_record, ← List.map_congr_left ih]
    exact (own.packed.sum_eq.1.symm.trans (Nat.zero_add _) : r.size = _)
  | @array a own element ih =>
    have hsize := (ArrayLayout.sizeOf?_eq_some_iff (s := ⟨a.capacity, a.extent⟩)).mp own.sizeOf?_eq
    rw [exactSize_array, ← ih]
    exact hsize.1.symm

theorem hasChain_iff (h : l.WellFormed) : l.hasChain = true ↔ l.Chains := by
  induction h with
  | scalar kind => exact ⟨nofun, nofun⟩
  | @record r own fields ih =>
    rw [hasChain, own.hasChain_eq, List.any_eq_true]
    constructor
    · rintro ⟨f, hf, hchain⟩
      exact .field hf ((ih f hf).mp hchain)
    · rintro (_ | _ | ⟨hf, hchain⟩)
      exact ⟨_, hf, (ih _ hf).mpr hchain⟩
  | @array a own element ih =>
    rw [hasChain_array, ih]
    constructor
    · rintro (hext | hchain)
      · exact .here hext
      · exact .element hchain
    · rintro (hext | hchain)
      · exact .inl hext
      · exact .inr hchain

/-- What well-formed layouts hold are the exact numbers. -/
theorem exact (h : l.WellFormed) : l.Exact := by
  refine ⟨h.size_eq, h.size_lt, h.hasChain_iff, ?_⟩
  induction h with
  | scalar kind => exact .scalar kind
  | @record r own fields ih =>
    have hr : (Layout.record r).WellFormed := .record own fields
    have hfields : ∀ fs : List FieldLayout, fs ⊆ r.fields →
        fs.map (·.layout.size) = fs.map (·.layout.exactSize) := fun fs hsub =>
      List.map_congr_left fun f hf => (fields f (hsub hf)).size_eq
    refine .record ⟨hr.size_eq.trans (exactSize_record r), own.size_lt, fun i f hf => ?_,
      fun f hf => ?_, hr.hasChain_iff⟩ ih
    · rw [own.packed.sum_eq.2 i f hf, Nat.zero_add, hfields _ (List.take_subset ..)]
    · exact (fields f hf).size_eq ▸ (own.packed.le_of_mem hf).2
  | @array a own element ih =>
    have ha : (Layout.array a).WellFormed := .array own element
    refine .array ⟨?_, own.size_lt, a.capacity_pos, own.capacity_le, ha.hasChain_iff⟩ ih
    rw [show a.size = (Layout.array a).size from rfl, ha.size_eq, exactSize_array, ArraySuffix.sizeOf]
    cases a.extent <;> rfl

end WellFormed

end Layout

/-! ## Arrays around a type -/

namespace ArraySuffix

variable {s : ArraySuffix} {element : Nat} {suffixes : List ArraySuffix}

/-- The array has slots, and no more of them in a block than a chained array may have. -/
def Valid (s : ArraySuffix) : Prop :=
  1 ≤ s.capacity ∧ (s.extent = .chained → s.capacity ≤ 1048576)

instance (s : ArraySuffix) : Decidable s.Valid := inferInstanceAs (Decidable (_ ∧ _))

/-- The exact size of the arrays that suffixes make of a type of that size. -/
def sizeOfAll (element : Nat) (suffixes : List ArraySuffix) : Nat :=
  suffixes.foldl (fun size s => s.sizeOf size) element

theorem fits_iff : s.Fits element ↔ s.Valid ∧ s.sizeOf element < wordLimit :=
  ⟨fun h => ⟨⟨h.capacity_pos, h.capacity_le⟩, h.sizeOf_lt⟩, fun h => ⟨h.1.1, h.1.2, h.2⟩⟩

/-- Arrays of valid capacities have a layout unless one of them is past the words. -/
theorem allFit_iff (hvalid : ∀ s ∈ suffixes, s.Valid) (hlt : element < wordLimit) :
    AllFit element suffixes ↔ ∀ inner, inner <+: suffixes → sizeOfAll element inner < wordLimit := by
  induction suffixes generalizing element with
  | nil =>
    refine ⟨fun _ inner hinner => ?_, fun _ => trivial⟩
    obtain rfl := List.prefix_nil.mp hinner
    exact hlt
  | cons s rest ih =>
    obtain ⟨hs, hrest⟩ := List.forall_mem_cons.mp hvalid
    rw [AllFit, fits_iff]
    constructor
    · rintro ⟨⟨-, hsize⟩, hfit⟩ inner hinner
      rcases List.prefix_cons_iff.mp hinner with rfl | ⟨behind, rfl, hbehind⟩
      · exact hlt
      · exact (ih hrest hsize).mp hfit behind hbehind
    · intro h
      have hsize := h [s] (List.prefix_cons_inj s |>.mpr List.nil_prefix)
      exact ⟨⟨hs, hsize⟩, (ih hrest hsize).mpr fun inner hinner =>
        h (s :: inner) (List.prefix_cons_inj s |>.mpr hinner)⟩

end ArraySuffix

/-- Arrays that have a layout have the exact size. -/
theorem Layout.size_of_arrayOf {base l : Layout} {suffixes : List ArraySuffix}
    (h : base.arrayOf suffixes = .ok l) : l.size = ArraySuffix.sizeOfAll base.size suffixes := by
  induction suffixes generalizing base with
  | nil =>
    obtain rfl := Except.ok.inj h
    rfl
  | cons s rest ih =>
    rw [arrayOf] at h
    cases ha : ArrayLayout.make? base s.capacity s.extent with
    | error e => simp [ha, bind, Except.bind] at h
    | ok a =>
      obtain ⟨_, rfl⟩ := ArrayLayout.eq_of_make? ha
      rw [ha] at h
      exact ih h

/-- A type in the arrays of suffixes, the first one innermost. -/
structure SuffixedType where
  base : Layout
  suffixes : List ArraySuffix

namespace SuffixedType

/-- The bytes of the outermost array, however many. -/
def exactSize (t : SuffixedType) : Nat := ArraySuffix.sizeOfAll t.base.exactSize t.suffixes

/-- One of the arrays, from the innermost on, is past the words. -/
def TooLarge (t : SuffixedType) : Prop :=
  ∃ inner, inner <+: t.suffixes ∧ wordLimit ≤ ArraySuffix.sizeOfAll t.base.exactSize inner

end SuffixedType

/-! ## Records -/

/-- Fields of distinct names have places unless they end past the words. -/
theorem RecordLayout.place_cases {record : String} {placed : List FieldLayout} {size : Nat}
    {rest : List (String × Layout)} (hnodup : (placed.map (·.name) ++ rest.map (·.1)).Nodup)
    (hlt : size < wordLimit) :
    (∃ result, place record placed size rest = .ok result) ∧
        size + (rest.map (·.2.size)).sum < wordLimit ∨
      (∃ shown, place record placed size rest = .error (.invalidArrayLength shown)) ∧
        wordLimit ≤ size + (rest.map (·.2.size)).sum := by
  induction rest generalizing placed size with
  | nil => exact .inl ⟨⟨_, rfl⟩, hlt⟩
  | cons field rest ih =>
    obtain ⟨name, layout⟩ := field
    have hnew : placed.any (·.name = name) = false := by
      rw [List.any_eq_false]
      intro f hf heq
      exact (List.nodup_append.mp hnodup).2.2 f.name (List.mem_map_of_mem hf) name
        List.mem_cons_self (of_decide_eq_true heq)
    rw [place, hnew, List.map_cons, List.sum_cons, ← Nat.add_assoc]
    rcases checkedAdd_cases size layout.size with hnext | ⟨hnext, hover⟩
    · rw [hnext]
      refine ih ?_ (checkedAdd_eq_some_iff.mp hnext).2
      simpa using hnodup
    · rw [hnext]
      exact .inr ⟨⟨_, rfl⟩, hover.trans (Nat.le_add_right ..)⟩

/-- Fields of distinct names make a record unless it is past the words. -/
theorem RecordLayout.make?_cases {name : String} {fields : List (String × Layout)}
    (hnodup : (fields.map (·.1)).Nodup) :
    (∃ r, make? name fields = .ok r) ∧ (fields.map (·.2.size)).sum < wordLimit ∨
      (∃ shown, make? name fields = .error (.invalidArrayLength shown)) ∧
        wordLimit ≤ (fields.map (·.2.size)).sum := by
  rw [make?]
  obtain ⟨⟨⟨placed, size⟩, hplace⟩, hlt⟩ | ⟨⟨shown, hplace⟩, hge⟩ :=
    @place_cases name [] 0 fields hnodup (by decide)
  · rw [hplace]
    exact .inl ⟨⟨_, rfl⟩, by omega⟩
  · rw [hplace]
    exact .inr ⟨⟨shown, rfl⟩, by omega⟩

/-! ## Catalogs -/

namespace Catalog

variable {c : Catalog} {text : String} {t : SuffixedType} {fields : List (String × String)}
  {ts : List SuffixedType}

/-- The text is the name of a known type with suffixes of valid capacities behind it. -/
structure Denotes (c : Catalog) (text : String) (t : SuffixedType) : Prop where
  spells : ∃ name, TypeExpression.Spells c.config.defaultBlockCapacity name t.suffixes text ∧
    c.lookup name = some t.base
  valid : ∀ s ∈ t.suffixes, s.Valid

/-- Known types in arrays of valid capacities resolve unless one of the arrays is too large. -/
theorem Built.resolve_of_denotes (h : c.Built) (ht : c.Denotes text t) :
    (∃ l, c.resolve text = .ok l ∧ l.size = t.exactSize) ∧ ¬ t.TooLarge ∨
      (∃ shown, c.resolve text = .error (.invalidArrayLength shown)) ∧ t.TooLarge := by
  obtain ⟨name, hspells, hbase⟩ := ht.spells
  have hw := h.wellFormed.lookup hbase
  have hfit := ArraySuffix.allFit_iff ht.valid hw.size_lt
  have hlarge : t.TooLarge ↔ ¬ ArraySuffix.AllFit t.base.size t.suffixes := by
    rw [hfit, SuffixedType.TooLarge, hw.size_eq]
    simp only [not_forall, Nat.not_lt, exists_prop]
  rw [h.regular.resolve_of_spells hspells hbase, hlarge, not_not, ← Layout.exists_arrayOf_iff]
  cases hl : t.base.arrayOf t.suffixes with
  | ok l =>
    refine .inl ⟨⟨l, rfl, ?_⟩, l, rfl⟩
    rw [Layout.size_of_arrayOf hl, hw.size_eq]
    rfl
  | error e =>
    obtain ⟨shown, rfl⟩ := Layout.arrayOf_eq_error hl
    exact .inr ⟨⟨shown, rfl⟩, nofun⟩

/-- So do the fields of a record, one by one. -/
theorem Built.resolveFields_of_denotes (h : c.Built) (hnames : ∀ field ∈ fields, IsName field.1)
    (hts : List.Forall₂ (fun field t => c.Denotes field.2 t) fields ts) :
    (∃ resolved, c.resolveFields fields = .ok resolved ∧
        resolved.map (·.2.size) = ts.map (·.exactSize)) ∧ (¬ ∃ t ∈ ts, t.TooLarge) ∨
      (∃ shown, c.resolveFields fields = .error (.invalidArrayLength shown)) ∧
        ∃ t ∈ ts, t.TooLarge := by
  induction hts with
  | nil => exact .inl ⟨⟨[], rfl, rfl⟩, nofun⟩
  | @cons field t fields ts ht hts ih =>
    obtain ⟨name, text⟩ := field
    obtain ⟨hname, hnames⟩ := List.forall_mem_cons.mp hnames
    rw [resolveFields, checkName_eq_ok_iff.mpr hname, List.exists_mem_cons_iff]
    obtain ⟨⟨l, hl, hsize⟩, hsmall⟩ | ⟨⟨shown, herror⟩, hlarge⟩ := h.resolve_of_denotes ht
    · rw [hl]
      obtain ⟨⟨resolved, hresolved, hsizes⟩, hnone⟩ | ⟨⟨shown, herror⟩, hsome⟩ := ih hnames
      · rw [hresolved]
        refine .inl ⟨⟨(name, l) :: resolved, rfl, ?_⟩, not_or.mpr ⟨hsmall, hnone⟩⟩
        rw [List.map_cons, List.map_cons, hsize, hsizes]
      · rw [herror]
        exact .inr ⟨⟨shown, rfl⟩, .inr hsome⟩
    · rw [herror]
      exact .inr ⟨⟨shown, rfl⟩, .inl hlarge⟩

/-- A record of such fields can be defined unless one of them or all together are too large. -/
theorem Built.define_of_denotes (h : c.Built) (hopen : c.compiled = false) {name : String}
    (hname : IsName name) (hfree : c.lookup name = none) (hnames : ∀ field ∈ fields, IsName field.1)
    (hnodup : (fields.map (·.1)).Nodup)
    (hts : List.Forall₂ (fun field t => c.Denotes field.2 t) fields ts) :
    (∃ r, (c.define name fields).1 = .ok r) ∧
        ¬ ((∃ t ∈ ts, t.TooLarge) ∨ wordLimit ≤ (ts.map (·.exactSize)).sum) ∨
      (∃ shown, (c.define name fields).1 = .error (.invalidArrayLength shown)) ∧
        ((∃ t ∈ ts, t.TooLarge) ∨ wordLimit ≤ (ts.map (·.exactSize)).sum) := by
  have hindex : c.index[name]? = none := by
    refine Option.eq_none_iff_forall_ne_some.mpr fun i hi => ?_
    obtain ⟨l, hl⟩ := (h.regular.index_iff name i).mp hi
    rw [h.regular.lookup_eq_some_iff.mpr (Array.mem_of_getElem? hl)] at hfree
    cases hfree
  rw [Catalog.define, checkDefinable_eq_ok_iff.mpr ⟨hopen, hname, hindex⟩]
  obtain ⟨⟨resolved, hresolved, hsizes⟩, hnone⟩ | ⟨⟨shown, herror⟩, hsome⟩ :=
    h.resolveFields_of_denotes hnames hts
  · have hdistinct : (resolved.map (·.1)).Nodup := by rwa [(resolveFields_eq_ok hresolved).1]
    have hmake := @RecordLayout.make?_cases name _ hdistinct
    rw [hsizes] at hmake
    rw [hresolved]
    obtain ⟨⟨r, hr⟩, hlt⟩ | ⟨⟨shown, herror⟩, hge⟩ := hmake
    · refine .inl ⟨⟨r, ?_⟩, not_or.mpr ⟨hnone, Nat.not_le.mpr hlt⟩⟩
      simp only [bind, Except.bind, hr]
    · refine .inr ⟨⟨shown, ?_⟩, .inr hge⟩
      simp only [bind, Except.bind, herror]
  · rw [herror]
    exact .inr ⟨⟨shown, rfl⟩, .inl hsome⟩

/-- Of two outcomes, each with what it comes from, an error is the one that comes from `P`. -/
theorem error_iff_of_cases {α : Type} {outcome : Except Error α} {P : Prop}
    (h : (∃ r, outcome = .ok r) ∧ ¬ P ∨
      (∃ shown, outcome = .error (.invalidArrayLength shown)) ∧ P) :
    ((∃ e, outcome = .error e) ↔ P) ∧
      ∀ e, outcome = .error e → ∃ shown, e = .invalidArrayLength shown := by
  obtain ⟨⟨r, rfl⟩, hP⟩ | ⟨⟨shown, rfl⟩, hP⟩ := h
  · exact ⟨⟨nofun, fun h => absurd h hP⟩, nofun⟩
  · exact ⟨⟨fun _ => hP, fun _ => ⟨_, rfl⟩⟩, fun e h => ⟨shown, (Except.error.inj h).symm⟩⟩

/-- The layouts that a catalog holds and resolves are exact in all their parts. Known types in arrays of
valid capacities resolve unless one of the arrays is past the words; proper new names of such fields
make a record unless one of their arrays or the record is. Whatever is too large is refused as an
invalid length. -/
theorem sizes_exact (h : c.Built) :
    (∀ name l, c.lookup name = some l → l.Exact) ∧
    (∀ text l, c.resolve text = .ok l → l.Exact) ∧
    (∀ text t, c.Denotes text t →
      ((∃ e, c.resolve text = .error e) ↔ t.TooLarge) ∧
      (∀ e, c.resolve text = .error e → ∃ shown, e = .invalidArrayLength shown) ∧
      ∀ l, c.resolve text = .ok l → l.exactSize = t.exactSize) ∧
    ∀ name fields ts, c.compiled = false → IsName name → c.lookup name = none →
      (∀ field ∈ fields, IsName field.1) → (fields.map (·.1)).Nodup →
      List.Forall₂ (fun field t => c.Denotes field.2 t) fields ts →
      ((∃ e, (c.define name fields).1 = .error e) ↔
        (∃ t ∈ ts, t.TooLarge) ∨ wordLimit ≤ (ts.map (·.exactSize)).sum) ∧
      ∀ e, (c.define name fields).1 = .error e → ∃ shown, e = .invalidArrayLength shown := by
  refine ⟨fun name l hl => (h.wellFormed.lookup hl).exact,
    fun text l hl => (h.wellFormed.resolve hl).exact, fun text t ht => ?_,
    fun name fields ts hopen hname hfree hnames hnodup hts => ?_⟩
  · have hcases := h.resolve_of_denotes ht
    obtain ⟨hiff, herror⟩ := error_iff_of_cases
      (hcases.imp_left fun hok => ⟨hok.1.imp fun l hl => hl.1, hok.2⟩)
    refine ⟨hiff, herror, fun l hl => ?_⟩
    obtain ⟨⟨l', hl', hsize⟩, -⟩ | ⟨⟨shown, hshown⟩, -⟩ := hcases
    · obtain rfl := Except.ok.inj (hl'.symm.trans hl)
      exact (h.wellFormed.resolve hl).size_eq.symm.trans hsize
    · cases hshown.symm.trans hl
  · exact error_iff_of_cases (h.define_of_denotes hopen hname hfree hnames hnodup hts)

theorem sizes_exact_wide :
    (∃ e, (new {}).resolve "uint8[18446744073709551615][~2]" = .error e) ∧
    (∃ e, ((new {}).define "Wide"
      [("a", "uint8[18446744073709551615]"), ("b", "uint8")]).1 = .error e) ∧
    ∀ l, (new {}).resolve "uint8[~2]" = .ok l → l.Exact ∧ l.exactSize = 10 := by
  have huge : ArraySuffix.Spells 128 ⟨18446744073709551615, .fixed⟩ "[18446744073709551615]" :=
    @ArraySuffix.Spells.fixed 128 "18446744073709551615" (by decide) (by decide) (by decide)
  have pair : ArraySuffix.Spells 128 ⟨2, .chained⟩ "[~2]" :=
    @ArraySuffix.Spells.chained 128 "2" (by decide) (by decide) (by decide)
  have hbytes (suffixes : List ArraySuffix) (text : String)
      (hspells : TypeExpression.Spells 128 "uint8" suffixes text) (hvalid : ∀ s ∈ suffixes, s.Valid) :
      (new {}).Denotes text ⟨.scalar .uint8, suffixes⟩ :=
    ⟨⟨"uint8", hspells, lookup_uint8 _⟩, hvalid⟩
  obtain ⟨-, hexact, hresolve, hdefine⟩ := sizes_exact (.new {})
  refine ⟨?_, ?_, fun l hl => ⟨hexact _ l hl, ?_⟩⟩
  · refine (hresolve _ _ (hbytes _ _ (.suffix (.suffix .name huge) pair) (by decide))).1.mpr ?_
    exact ⟨_, List.prefix_rfl, by decide⟩
  · have hfresh : (new {}).lookup "Wide" = none := by
      simp [lookup, new, insert, Scalar.all, Scalar.aliases, Scalar.name]
    have ha := hbytes _ _ (.suffix .name huge) (by decide)
    have hb := hbytes _ _ .name (by decide)
    refine (hdefine _ _ _ rfl (by decide) hfresh (by decide) (by decide)
      (.cons ha (.cons hb .nil))).1.mpr ?_
    exact .inr (by decide)
  · exact (hresolve _ _ (hbytes _ _ (.suffix .name pair) (by decide))).2.2 l hl

end Catalog

end RecordFile
