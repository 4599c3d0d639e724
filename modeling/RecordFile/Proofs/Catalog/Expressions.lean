import RecordFile.Proofs.Catalog.Runs
import RecordFile.Proofs.Text.Numeral

/-!
# What type expressions denote

A name is a type expression, and so is a type expression with a suffix behind it
(`TypeExpression.Spells`). Reading takes suffixes off the end as long as there is a closing bracket,
so it finds just the spelling whose name does not end in one (`read?_eq_some_iff`).

The name of a type that a catalog holds, or of an array of such types, is a type expression of it:
scalar kinds and records are listed under their names, and the name of an array is that of its
elements with a suffix behind it (`Catalog.Built.exists_spells_name`).
-/

namespace RecordFile

/-! ## Suffixes -/

namespace ArraySuffix

/-- The texts of a suffix. -/
inductive Spells (defaultCapacity : Nat) : ArraySuffix → String → Prop
  | default : Spells defaultCapacity ⟨defaultCapacity, .chained⟩ "[]"
  | chained {numeral : String} (isNumeral : Numeral.isNumeral numeral.toList)
    (pos : 0 < Numeral.number numeral) (lt : Numeral.number numeral < wordLimit) :
    Spells defaultCapacity ⟨Numeral.number numeral, .chained⟩ ("[~" ++ numeral ++ "]")
  | fixed {numeral : String} (isNumeral : Numeral.isNumeral numeral.toList)
    (pos : 0 < Numeral.number numeral) (lt : Numeral.number numeral < wordLimit) :
    Spells defaultCapacity ⟨Numeral.number numeral, .fixed⟩ ("[" ++ numeral ++ "]")

variable {defaultCapacity : Nat} {s : ArraySuffix} {inner : List Char} {piece : String}

theorem positive?_eq_some_iff {n : Nat} :
    positive? inner = some n ↔ Numeral.isNumeral inner ∧
      Numeral.number (String.ofList inner) = n ∧ 0 < n ∧ n < wordLimit := by
  have hbind : positive? inner = some n ↔ Numeral.value? inner = some n ∧ 0 < n := by
    rw [positive?, Option.bind_eq_bind, Option.bind_eq_some_iff]
    constructor
    · rintro ⟨m, hm, h⟩
      split at h
      · obtain rfl := Option.some.inj h
        exact ⟨hm, ‹_›⟩
      · cases h
    · rintro ⟨hn, hpos⟩
      exact ⟨n, hn, if_pos hpos⟩
  rw [hbind, Numeral.value?_eq_some]
  grind

/-- Only digits stand between the brackets, behind a tilde at most. -/
theorem bracket_notMem (h : read? defaultCapacity inner = some s) : '[' ∉ inner := by
  have hdigits : ∀ {numeral : List Char} {n : Nat}, positive? numeral = some n → '[' ∉ numeral := by
    intro numeral n hn hmem
    have := (Numeral.isNumeral_iff.mp (positive?_eq_some_iff.mp hn).1).2 _ hmem
    exact absurd this (by decide)
  unfold read? at h
  split at h
  · simp
  · obtain ⟨n, hn, -⟩ := Option.map_eq_some_iff.mp h
    simpa using hdigits hn
  · obtain ⟨n, hn, -⟩ := Option.map_eq_some_iff.mp h
    exact hdigits hn

/-- The suffixes that can be read are those with a text. -/
theorem read?_eq_some_iff :
    read? defaultCapacity inner = some s ↔
      s.Spells defaultCapacity ("[" ++ String.ofList inner ++ "]") := by
  constructor
  · intro h
    unfold read? at h
    split at h
    · obtain rfl := Option.some.inj h
      exact .default
    · rename_i numeral
      obtain ⟨n, hn, rfl⟩ := Option.map_eq_some_iff.mp h
      obtain ⟨hnumeral, rfl, hpos, hlt⟩ := positive?_eq_some_iff.mp hn
      have htext : "[" ++ String.ofList ('~' :: numeral) ++ "]" =
          "[~" ++ String.ofList numeral ++ "]" := by simp [← String.toList_inj]
      exact htext ▸ .chained (by simpa using hnumeral) hpos hlt
    · obtain ⟨n, hn, rfl⟩ := Option.map_eq_some_iff.mp h
      obtain ⟨hnumeral, rfl, hpos, hlt⟩ := positive?_eq_some_iff.mp hn
      exact .fixed (by simpa using hnumeral) hpos hlt
  · intro h
    generalize htext : "[" ++ String.ofList inner ++ "]" = text at h
    have hinner : ∀ {numeral : String}, "[" ++ numeral ++ "]" = text → inner = numeral.toList := by
      rintro numeral rfl
      simpa [← String.toList_inj] using htext
    cases h with
    | default =>
      have hempty : "[" ++ "" ++ "]" = "[]" := rfl
      obtain rfl : inner = [] := hinner hempty
      rfl
    | @chained numeral hnumeral hpos hlt =>
      obtain rfl : inner = ("~" ++ numeral).toList := hinner (by simp [← String.toList_inj])
      have hvalue := positive?_eq_some_iff.mpr
        ⟨hnumeral, congrArg Numeral.number String.ofList_toList, hpos, hlt⟩
      simp [read?, hvalue]
    | @fixed numeral hnumeral hpos hlt =>
      obtain rfl := hinner rfl
      have hvalue := positive?_eq_some_iff.mpr
        ⟨hnumeral, congrArg Numeral.number String.ofList_toList, hpos, hlt⟩
      obtain ⟨hne, hdigits⟩ := Numeral.isNumeral_iff.mp hnumeral
      unfold read?
      split
      · exact absurd ‹_› hne
      · rename_i htilde
        exact absurd (hdigits '~' (htilde ▸ List.mem_cons_self)) (by decide)
      · rw [hvalue]
        rfl

/-- A text of a suffix is in brackets and can be read. -/
theorem Spells.exists_inner (h : s.Spells defaultCapacity piece) :
    ∃ inner, piece = "[" ++ String.ofList inner ++ "]" ∧ read? defaultCapacity inner = some s := by
  have hbrackets : ∃ inner, piece = "[" ++ String.ofList inner ++ "]" := by
    cases h with
    | default => exact ⟨[], rfl⟩
    | @chained numeral => exact ⟨'~' :: numeral.toList, by simp [← String.toList_inj]⟩
    | @fixed numeral => exact ⟨numeral.toList, by simp⟩
  obtain ⟨inner, rfl⟩ := hbrackets
  exact ⟨inner, rfl, read?_eq_some_iff.mpr h⟩

/-- The capacity of a suffix that has a text is a word, unless it is the default one. -/
theorem Spells.capacity_lt (h : s.Spells defaultCapacity piece) (hext : s.extent = .fixed) :
    s.capacity < wordLimit := by
  cases h with
  | default => cases hext
  | chained _ _ _ => cases hext
  | fixed _ _ hlt => exact hlt

/-- What stands behind the name of the elements is a text of the suffix. -/
theorem spells_suffix {capacity : Nat} (extent : Extent) (hpos : 0 < capacity)
    (hlt : capacity < wordLimit) :
    Spells defaultCapacity ⟨capacity, extent⟩ (extent.suffix capacity) := by
  obtain ⟨hnumeral, hnumber⟩ := Numeral.isNumeral_toString capacity
  rw [← hnumber] at hpos hlt
  have hspells : Spells defaultCapacity ⟨Numeral.number (toString capacity), extent⟩
      (extent.suffix capacity) := by
    cases extent with
    | fixed => exact .fixed hnumeral hpos hlt
    | chained => exact .chained hnumeral hpos hlt
  rwa [hnumber] at hspells

end ArraySuffix

/-! ## Expressions -/

namespace TypeExpression

/-- The texts of a name with suffixes behind it. -/
inductive Spells (defaultCapacity : Nat) (base : String) : List ArraySuffix → String → Prop
  | name : Spells defaultCapacity base [] base
  | suffix {suffixes : List ArraySuffix} {text piece : String} {s : ArraySuffix}
    (element : Spells defaultCapacity base suffixes text) (last : s.Spells defaultCapacity piece) :
    Spells defaultCapacity base (suffixes ++ [s]) (text ++ piece)

/-- The name does not end in a closing bracket, so what is behind it are all the suffixes. -/
def Maximal (e : TypeExpression) : Prop := e.base.toList.getLast? ≠ some ']'

variable {defaultCapacity : Nat} {e : TypeExpression} {behind : List ArraySuffix}
  {inner outer reversed : List Char} {s : ArraySuffix}

theorem readBackwards?_bracket (h : ArraySuffix.read? defaultCapacity inner = some s) :
    readBackwards? defaultCapacity behind (']' :: (inner.reverse ++ '[' :: outer)) =
      readBackwards? defaultCapacity (s :: behind) outer := by
  have hfree : ∀ c ∈ inner.reverse, decide (c ≠ '[') = true := by
    intro c hc
    have hne : c ≠ '[' := fun hc' =>
      ArraySuffix.bracket_notMem h (hc' ▸ List.mem_reverse.mp hc)
    simpa using hne
  have hdrop : (inner.reverse ++ '[' :: outer).dropWhile (fun c => decide (c ≠ '[')) =
      '[' :: outer := by
    rw [List.dropWhile_append_of_pos hfree]
    simp
  have htake : (inner.reverse ++ '[' :: outer).takeWhile (fun c => decide (c ≠ '[')) =
      inner.reverse := by
    rw [List.takeWhile_append_of_pos hfree]
    simp
  rw [readBackwards?]
  split
  · simp_all
  · rename_i hcons
    obtain ⟨-, rfl⟩ := List.cons.inj (hdrop.symm.trans hcons)
    rw [htake, List.reverse_reverse, h]
    rfl

/-- Reading backwards finds the suffixes of the spelling whose name does not end in a bracket. -/
theorem readBackwards?_eq_some_iff :
    readBackwards? defaultCapacity behind reversed = some e ↔
      ∃ front, Spells defaultCapacity e.base front (String.ofList reversed.reverse) ∧
        e.suffixes = front ++ behind ∧ e.Maximal := by
  constructor
  · intro h
    fun_induction readBackwards? defaultCapacity behind reversed with
    | case1 => cases h
    | case2 behind rest head outer hdrop ih =>
      obtain ⟨s, hs, h⟩ := Option.bind_eq_some_iff.mp h
      obtain ⟨front, hfront, hsuffixes, hmax⟩ := ih s h
      obtain rfl : head = '[' := by
        have := List.head?_dropWhile_not (fun c => decide (c ≠ '[')) rest
        rw [hdrop] at this
        simpa using this
      have hrest := List.takeWhile_append_dropWhile (p := fun c => decide (c ≠ '[')) (l := rest)
      rw [hdrop] at hrest
      refine ⟨front ++ [s], ?_, by simpa using hsuffixes, hmax⟩
      have htext : String.ofList (']' :: rest).reverse = String.ofList outer.reverse ++
          ("[" ++ String.ofList (rest.takeWhile fun c => decide (c ≠ '[')).reverse ++ "]") := by
        conv_lhs => rw [← hrest]
        simp [← String.toList_inj]
      exact htext ▸ .suffix hfront (ArraySuffix.read?_eq_some_iff.mp hs)
    | case3 behind reversed hbare =>
      obtain rfl := Option.some.inj h
      refine ⟨[], .name, rfl, fun hlast => ?_⟩
      rw [String.toList_ofList, List.getLast?_reverse] at hlast
      obtain ⟨rest, rfl⟩ := List.head?_eq_some_iff.mp hlast
      exact hbare rest rfl
  · rintro ⟨front, hspells, hsuffixes, hmax⟩
    generalize htext : String.ofList reversed.reverse = text at hspells
    obtain rfl : reversed = text.toList.reverse := by simp [← htext]
    clear htext
    induction hspells generalizing behind with
    | name =>
      rw [readBackwards?]
      · rw [List.reverse_reverse, String.ofList_toList, ← List.nil_append behind, ← hsuffixes]
      · intro rest hrest
        refine hmax ?_
        rw [← List.head?_reverse, hrest]
        rfl
    | @suffix suffixes text piece s _ hlast ih =>
      obtain ⟨inner, rfl, hread⟩ := hlast.exists_inner
      have hreversed : (text ++ ("[" ++ String.ofList inner ++ "]")).toList.reverse =
          ']' :: (inner.reverse ++ '[' :: text.toList.reverse) := by simp
      rw [hreversed, readBackwards?_bracket hread]
      exact ih (by simpa using hsuffixes)

/-- A text is read as its spelling in which the name does not end in a bracket. -/
theorem read?_eq_some_iff {text : String} :
    read? defaultCapacity text = some e ↔
      Spells defaultCapacity e.base e.suffixes text ∧ e.Maximal := by
  rw [read?, readBackwards?_eq_some_iff]
  simp only [List.reverse_reverse, String.ofList_toList, List.append_nil]
  constructor
  · rintro ⟨front, hspells, rfl, hmax⟩
    exact ⟨hspells, hmax⟩
  · rintro ⟨hspells, hmax⟩
    exact ⟨_, hspells, rfl, hmax⟩

theorem Spells.last_of_mem {base text : String} {suffixes : List ArraySuffix}
    (h : Spells defaultCapacity base suffixes text) (hs : s ∈ suffixes) :
    ∃ piece, s.Spells defaultCapacity piece := by
  induction h with
  | name => cases hs
  | suffix _ last ih =>
    rcases List.mem_append.mp hs with hs | hs
    · exact ih hs
    · exact ⟨_, List.mem_singleton.mp hs ▸ last⟩

end TypeExpression

/-! ## Arrays -/

namespace ArraySuffix

/-- The exact size of the array that the suffix makes of elements of that size. -/
def sizeOf (s : ArraySuffix) (element : Nat) : Nat :=
  match s.extent with
  | .fixed => s.capacity * element
  | .chained => s.capacity * element + linkSize

/-- The array that the suffix makes of elements of that size has a layout: its capacity is not zero
nor, if it is chained, past the greatest, and its exact size is a word. -/
structure Fits (s : ArraySuffix) (element : Nat) : Prop where
  capacity_pos : 0 < s.capacity
  capacity_le : s.extent = .chained → s.capacity ≤ maxBlockCapacity
  sizeOf_lt : s.sizeOf element < wordLimit

/-- All the arrays that suffixes make of a type of that size have a layout. -/
def AllFit : (element : Nat) → List ArraySuffix → Prop
  | _, [] => True
  | element, s :: rest => s.Fits element ∧ AllFit (s.sizeOf element) rest

end ArraySuffix

/-- The type is `base` in the arrays of the suffixes, the first one innermost. -/
inductive Layout.Wraps : Layout → List ArraySuffix → Layout → Prop
  | base (l : Layout) : Wraps l [] l
  | array {suffixes : List ArraySuffix} {a : ArrayLayout} {s : ArraySuffix} {l : Layout}
    (capacity : a.capacity = s.capacity) (extent : a.extent = s.extent)
    (size : a.size = s.sizeOf a.element.size) (outer : Wraps (.array a) suffixes l) :
    Wraps a.element (s :: suffixes) l

namespace ArrayLayout

variable {element : Layout} {s : ArraySuffix} {a : ArrayLayout}

theorem sizeOf?_eq_some_iff {size : Nat} :
    sizeOf? element s.capacity s.extent = some size ↔
      s.sizeOf element.size = size ∧ size < wordLimit := by
  unfold ArraySuffix.sizeOf
  cases s.extent with
  | fixed => exact checkedMul_eq_some_iff
  | chained =>
    rw [sizeOf?, Option.bind_eq_bind, Option.bind_eq_some_iff]
    constructor
    · rintro ⟨slots, hslots, hsum⟩
      obtain ⟨rfl, -⟩ := checkedMul_eq_some_iff.mp hslots
      exact checkedAdd_eq_some_iff.mp hsum
    · rintro ⟨rfl, hlt⟩
      have hslots : s.capacity * element.size < wordLimit :=
        Nat.lt_of_le_of_lt (Nat.le_add_right _ linkSize) hlt
      exact ⟨_, checkedMul_eq_some_iff.mpr ⟨rfl, hslots⟩, checkedAdd_eq_some_iff.mpr ⟨rfl, hlt⟩⟩

theorem make?_of_fits (h : s.Fits element.size) :
    make? element s.capacity s.extent =
      .ok ⟨element, s.capacity, s.extent, s.sizeOf element.size, h.capacity_pos⟩ := by
  have hcap : ¬ (s.extent = .chained ∧ maxBlockCapacity < s.capacity) := fun hcap =>
    absurd (h.capacity_le hcap.1) (Nat.not_le.mpr hcap.2)
  rw [make?, dif_pos h.capacity_pos, if_neg hcap,
    sizeOf?_eq_some_iff.mpr ⟨rfl, h.sizeOf_lt⟩]

theorem eq_of_make? (h : make? element s.capacity s.extent = .ok a) :
    ∃ hfits : s.Fits element.size,
      ⟨element, s.capacity, s.extent, s.sizeOf element.size, hfits.capacity_pos⟩ = a := by
  rw [make?] at h
  split at h
  · rename_i hpos
    split at h
    · cases h
    rename_i hcap
    split at h
    · rename_i size hsize
      obtain ⟨rfl, hlt⟩ := sizeOf?_eq_some_iff.mp hsize
      exact ⟨⟨hpos, fun hext => Nat.le_of_not_lt fun hlt => hcap ⟨hext, hlt⟩, hlt⟩, Except.ok.inj h⟩
    · cases h
  · cases h

theorem make?_eq_error {capacity : Nat} {extent : Extent} {e : Error}
    (h : make? element capacity extent = .error e) :
    e = .invalidArrayLength (nameOf element capacity extent) := by
  rw [make?] at h
  split at h
  · split at h
    · exact (Except.error.inj h).symm
    split at h
    · cases h
    · exact (Except.error.inj h).symm
  · exact (Except.error.inj h).symm

/-- A well-formed array is the one that is made of its own parts. -/
theorem WellFormed.make?_eq (own : a.WellFormed) :
    make? a.element a.capacity a.extent = .ok a := by
  obtain ⟨element, capacity, extent, size, hpos⟩ := a
  obtain ⟨hsize, hlt⟩ := (sizeOf?_eq_some_iff (s := ⟨capacity, extent⟩)).mp own.sizeOf?_eq
  have hfits : ArraySuffix.Fits ⟨capacity, extent⟩ element.size :=
    ⟨hpos, own.capacity_le, hsize ▸ hlt⟩
  rw [make?_of_fits (s := ⟨capacity, extent⟩) hfits]
  simp only [hsize]

end ArrayLayout

namespace Layout

variable {base l : Layout} {suffixes : List ArraySuffix}

/-- Suffixes make arrays of a type exactly if all of these have a layout. -/
theorem exists_arrayOf_iff :
    (∃ l, base.arrayOf suffixes = .ok l) ↔ ArraySuffix.AllFit base.size suffixes := by
  induction suffixes generalizing base with
  | nil => exact ⟨fun _ => trivial, fun _ => ⟨base, rfl⟩⟩
  | cons s rest ih =>
    rw [arrayOf, ArraySuffix.AllFit]
    constructor
    · rintro ⟨l, h⟩
      cases ha : ArrayLayout.make? base s.capacity s.extent with
      | error e => simp [ha, bind, Except.bind] at h
      | ok a =>
        obtain ⟨hfits, rfl⟩ := ArrayLayout.eq_of_make? ha
        rw [ha] at h
        exact ⟨hfits, ih.mp ⟨l, h⟩⟩
    · rintro ⟨hfits, hrest⟩
      rw [ArrayLayout.make?_of_fits hfits]
      exact ih.mpr hrest

/-- What suffixes make of a type is that type in their arrays. -/
theorem arrayOf_wraps (h : base.arrayOf suffixes = .ok l) : base.Wraps suffixes l := by
  induction suffixes generalizing base with
  | nil =>
    obtain rfl := Except.ok.inj h
    exact .base base
  | cons s rest ih =>
    rw [arrayOf] at h
    cases ha : ArrayLayout.make? base s.capacity s.extent with
    | error e => simp [ha, bind, Except.bind] at h
    | ok a =>
      obtain ⟨_, rfl⟩ := ArrayLayout.eq_of_make? ha
      rw [ha] at h
      exact .array rfl rfl rfl (ih h)

/-- Arrays of a type that cannot be made are refused as such. -/
theorem arrayOf_eq_error {e : Error} (h : base.arrayOf suffixes = .error e) :
    ∃ text, e = .invalidArrayLength text := by
  induction suffixes generalizing base with
  | nil => cases h
  | cons s rest ih =>
    rw [arrayOf] at h
    cases ha : ArrayLayout.make? base s.capacity s.extent with
    | error e' =>
      rw [ha] at h
      exact ⟨_, Except.error.inj h ▸ ArrayLayout.make?_eq_error ha⟩
    | ok a =>
      rw [ha] at h
      exact ih h

/-- The capacities of all arrays in a type are words. -/
def WordCapacities (l : Layout) : Prop := l.Every (fun _ => True) (·.capacity < wordLimit)

theorem WordCapacities.arrayOf (hbase : base.WordCapacities)
    (hs : ∀ s ∈ suffixes, s.extent = .fixed → s.capacity < wordLimit)
    (h : base.arrayOf suffixes = .ok l) : l.WordCapacities := by
  induction suffixes generalizing base with
  | nil => exact Except.ok.inj h ▸ hbase
  | cons s rest ih =>
    rw [Layout.arrayOf] at h
    cases ha : ArrayLayout.make? base s.capacity s.extent with
    | error e => simp [ha, bind, Except.bind] at h
    | ok a =>
      obtain ⟨hfits, rfl⟩ := ArrayLayout.eq_of_make? ha
      rw [ha] at h
      obtain ⟨hlt, hrest⟩ := List.forall_mem_cons.mp hs
      have hcapacity : s.capacity < wordLimit := by
        cases hext : s.extent with
        | fixed => exact hlt hext
        | chained => exact Nat.lt_of_le_of_lt (hfits.capacity_le hext) (by decide)
      have hown : (Layout.array ⟨base, s.capacity, s.extent, s.sizeOf base.size,
          hfits.capacity_pos⟩).WordCapacities := .array hcapacity hbase
      exact ih hown hrest h

theorem arrayOf_append {more : List ArraySuffix} (h : base.arrayOf suffixes = .ok l) :
    base.arrayOf (suffixes ++ more) = l.arrayOf more := by
  induction suffixes generalizing base with
  | nil =>
    obtain rfl := Except.ok.inj h
    rfl
  | cons s rest ih =>
    rw [List.cons_append, arrayOf]
    rw [arrayOf] at h
    cases ha : ArrayLayout.make? base s.capacity s.extent with
    | error e => simp [ha, bind, Except.bind] at h
    | ok a => exact ih (by simpa [ha, bind, Except.bind] using h)

end Layout

/-! ## Catalogs -/

namespace Catalog

variable {c : Catalog} {text name : String} {suffixes : List ArraySuffix} {base l : Layout}

/-- A proper name has no bracket in it, so what is behind it are all the suffixes. -/
theorem IsName.maximal (h : IsName name) : (⟨name, suffixes⟩ : TypeExpression).Maximal :=
  fun hlast => (h.2 _ (List.mem_of_getLast? hlast)).2.2 rfl

/-- What resolving a type expression can come to. -/
theorem resolve_cases (c : Catalog) (text : String) :
    c.resolve text = .error (.invalidArrayLength text) ∨
      ∃ name suffixes, TypeExpression.Spells c.config.defaultBlockCapacity name suffixes text ∧
        (⟨name, suffixes⟩ : TypeExpression).Maximal ∧
        (c.lookup name = none ∧ c.resolve text = .error (.unknownType name) ∨
          ∃ base, c.lookup name = some base ∧ c.resolve text = base.arrayOf suffixes) := by
  rw [resolve]
  split
  · exact .inl rfl
  rename_i e hread
  obtain ⟨hspells, hmax⟩ := TypeExpression.read?_eq_some_iff.mp hread
  refine .inr ⟨e.base, e.suffixes, hspells, hmax, ?_⟩
  split
  · exact .inl ⟨‹_›, rfl⟩
  · exact .inr ⟨_, ‹_›, rfl⟩

/-- A known name with suffixes behind it denotes what the suffixes make of the type. -/
theorem Regular.resolve_of_spells (h : c.Regular)
    (hspells : TypeExpression.Spells c.config.defaultBlockCapacity name suffixes text)
    (hbase : c.lookup name = some base) : c.resolve text = base.arrayOf suffixes := by
  have hname := h.isName _ (h.lookup_eq_some_iff.mp hbase)
  have hread := (TypeExpression.read?_eq_some_iff (e := ⟨name, suffixes⟩)).mpr
    ⟨hspells, hname.maximal⟩
  simp only [resolve, hread, hbase]

/-- A scalar kind is listed under its name, whatever is defined. -/
theorem Built.mem_scalar (h : c.Built) (k : Scalar) : (k.name, .scalar k) ∈ c.types := by
  have hinsert : ∀ {c : Catalog} (name : String) (l : Layout), (k.name, .scalar k) ∈ c.types →
      (k.name, .scalar k) ∈ (c.insert name l).types :=
    fun _ _ hmem => Array.mem_push_of_mem _ hmem
  induction h with
  | new config => exact mem_types_new k.ofName?_name
  | @define c _ name fields ih =>
    obtain ⟨e, heq⟩ | ⟨_, r, -, -, -, heq⟩ := c.define_cases name fields <;> rw [heq]
    · exact ih
    · exact hinsert _ _ ih
  | @defineArray c _ name text ih =>
    obtain ⟨e, heq⟩ | ⟨a, -, -, heq⟩ := c.defineArray_cases name text <;> rw [heq]
    · exact ih
    · exact hinsert _ _ ih
  | @compile c _ root ih =>
    obtain ⟨e, heq⟩ | ⟨r, -, -, -, heq⟩ := c.compile_cases root <;> rw [heq] <;> exact ih

/-- The capacities of the arrays that are resolved are words if those of the known ones are. -/
theorem wordCapacities_resolve (h : ∀ entry ∈ c.types, entry.2.WordCapacities)
    (hl : c.resolve text = .ok l) : l.WordCapacities := by
  obtain herror | ⟨name, suffixes, hspells, -, ⟨-, herror⟩ | ⟨base, hbase, hbuilt⟩⟩ :=
    c.resolve_cases text
  · cases herror.symm.trans hl
  · cases herror.symm.trans hl
  obtain ⟨_, hfound⟩ := mem_of_lookup hbase
  refine (h _ hfound).arrayOf (fun s hs => ?_) (hbuilt.symm.trans hl)
  obtain ⟨piece, hpiece⟩ := hspells.last_of_mem hs
  exact hpiece.capacity_lt

theorem Built.wordCapacities (h : c.Built) : ∀ entry ∈ c.types, entry.2.WordCapacities := by
  have hinsert : ∀ {c : Catalog} (name : String) (l : Layout),
      (∀ entry ∈ c.types, entry.2.WordCapacities) → l.WordCapacities →
      ∀ entry ∈ (c.insert name l).types, entry.2.WordCapacities := by
    intro c name l hc hl entry hentry
    rcases Array.mem_push.mp hentry with hentry | rfl
    · exact hc entry hentry
    · exact hl
  induction h with
  | new config =>
    intro entry hentry
    rw [← Array.mem_toList_iff, types_new] at hentry
    obtain ⟨p, -, rfl⟩ := List.mem_map.mp hentry
    exact .scalar p.2
  | @define c _ name fields ih =>
    obtain ⟨e, heq⟩ | ⟨resolved, r, -, hfields, hr, heq⟩ := c.define_cases name fields <;> rw [heq]
    · exact ih
    · refine hinsert _ _ ih (.record trivial fun f hf => ?_)
      obtain ⟨-, _, hl⟩ := (resolveFields_eq_ok hfields).2 _ (RecordLayout.mem_of_make? hr hf)
      exact wordCapacities_resolve ih hl
  | @defineArray c _ name text ih =>
    obtain ⟨e, heq⟩ | ⟨a, -, ha, heq⟩ := c.defineArray_cases name text <;> rw [heq]
    · exact ih
    · exact hinsert _ _ ih (wordCapacities_resolve ih ha)
  | @compile c _ root ih =>
    obtain ⟨e, heq⟩ | ⟨r, -, -, -, heq⟩ := c.compile_cases root <;> rw [heq] <;> exact ih

/-- The name of a type is a known name with suffixes behind it, which make the type. -/
theorem Built.exists_spells_name (h : c.Built) (hw : l.WellFormed)
    (hl : l.MadeOf (c.types.toList.map (·.2))) (hcapacities : l.WordCapacities) :
    ∃ name suffixes base,
      TypeExpression.Spells c.config.defaultBlockCapacity name suffixes l.name ∧
        c.lookup name = some base ∧ base.arrayOf suffixes = .ok l := by
  have hregular := h.regular
  induction hw with
  | scalar k =>
    exact ⟨k.name, [], .scalar k, .name, hregular.lookup_eq_some_iff.mpr (h.mem_scalar k), rfl⟩
  | @record r _ _ _ =>
    cases hl with | known hmem =>
    obtain ⟨⟨name, _⟩, hentry, rfl⟩ := List.mem_map.mp hmem
    have hentry := Array.mem_toList_iff.mp hentry
    obtain ⟨rfl, -⟩ := hregular.record name r hentry
    exact ⟨r.name, [], .record r, .name, hregular.lookup_eq_some_iff.mpr hentry, rfl⟩
  | @array a own _ ih =>
    cases hcapacities with | array hcapacity hcapacities =>
    obtain ⟨name, suffixes, base, hspells, hbase, helement⟩ :=
      ih (hregular.element_madeOf hl) hcapacities
    have hname : (Layout.array a).name = a.element.name ++ a.extent.suffix a.capacity := by
      cases a
      rfl
    rw [hname]
    refine ⟨name, suffixes ++ [⟨a.capacity, a.extent⟩], base,
      .suffix hspells (ArraySuffix.spells_suffix _ a.capacity_pos hcapacity), hbase, ?_⟩
    rw [Layout.arrayOf_append helement, Layout.arrayOf, own.make?_eq]
    rfl

/-- A type expression denotes a type exactly if it is a known name with suffixes behind it whose
arrays all have a layout, and then the type of that name in these arrays. Otherwise the name is not
known, or there is no such array. The name of every type that is denoted denotes it. -/
theorem resolve_spells (h : c.Built) (text : String) :
    ((∃ l, c.resolve text = .ok l) ↔
      ∃ name suffixes base,
        TypeExpression.Spells c.config.defaultBlockCapacity name suffixes text ∧
          c.lookup name = some base ∧ ArraySuffix.AllFit base.size suffixes) ∧
    (∀ name suffixes base l,
      TypeExpression.Spells c.config.defaultBlockCapacity name suffixes text →
        c.lookup name = some base → c.resolve text = .ok l → base.Wraps suffixes l) ∧
    (∀ name, c.resolve text = .error (.unknownType name) ↔
      ∃ suffixes, TypeExpression.Spells c.config.defaultBlockCapacity name suffixes text ∧
        (⟨name, suffixes⟩ : TypeExpression).Maximal ∧ c.lookup name = none) ∧
    (∀ e, c.resolve text = .error e → (∀ name, e ≠ .unknownType name) →
      ∃ expression, e = .invalidArrayLength expression) ∧
    ∀ l, c.resolve text = .ok l → c.resolve l.name = .ok l := by
  have hregular := h.regular
  have hcases := c.resolve_cases text
  refine ⟨⟨fun ⟨l, hl⟩ => ?_, ?_⟩, fun name suffixes base l hspells hbase hl => ?_,
    fun name => ⟨fun herror => ?_, ?_⟩, fun e herror hknown => ?_, fun l hl => ?_⟩
  · obtain h | ⟨name, suffixes, hspells, -, ⟨-, h⟩ | ⟨base, hbase, h⟩⟩ := hcases <;> rw [h] at hl
    · cases hl
    · cases hl
    · exact ⟨name, suffixes, base, hspells, hbase, Layout.exists_arrayOf_iff.mp ⟨l, hl⟩⟩
  · rintro ⟨name, suffixes, base, hspells, hbase, hfit⟩
    rw [hregular.resolve_of_spells hspells hbase]
    exact Layout.exists_arrayOf_iff.mpr hfit
  · rw [hregular.resolve_of_spells hspells hbase] at hl
    exact Layout.arrayOf_wraps hl
  · obtain h | ⟨other, suffixes, hspells, hmax, ⟨hnone, h⟩ | ⟨base, -, h⟩⟩ := hcases <;>
      rw [h] at herror
    · cases herror
    · cases herror
      exact ⟨suffixes, hspells, hmax, hnone⟩
    · obtain ⟨_, h⟩ := Layout.arrayOf_eq_error herror
      cases h
  · rintro ⟨suffixes, hspells, hmax, hnone⟩
    have hread := (TypeExpression.read?_eq_some_iff (e := ⟨name, suffixes⟩)).mpr ⟨hspells, hmax⟩
    simp only [resolve, hread, hnone]
  · obtain h | ⟨name, suffixes, -, -, ⟨-, h⟩ | ⟨base, -, h⟩⟩ := hcases <;> rw [h] at herror
    · exact ⟨text, (Except.error.inj herror).symm⟩
    · exact absurd (Except.error.inj herror).symm (hknown name)
    · exact Layout.arrayOf_eq_error herror
  · obtain ⟨name, suffixes, base, hspells, hbase, hbuilt⟩ := h.exists_spells_name
      (h.wellFormed.resolve hl) (hregular.madeOf_resolve hl)
      (wordCapacities_resolve h.wordCapacities hl)
    rw [hregular.resolve_of_spells hspells hbase, hbuilt]

theorem resolve_spells_uint8 : ∃ l, (new {}).resolve "uint8[~2][03]" = .ok l ∧
    (new {}).resolve l.name = .ok l := by
  have hspells : TypeExpression.Spells 128 "uint8" [⟨2, .chained⟩, ⟨3, .fixed⟩] "uint8[~2][03]" :=
    have hchained : ArraySuffix.Spells 128 ⟨2, .chained⟩ "[~2]" :=
      @ArraySuffix.Spells.chained 128 "2" (by decide) (by decide) (by decide)
    have hfixed : ArraySuffix.Spells 128 ⟨3, .fixed⟩ "[03]" :=
      @ArraySuffix.Spells.fixed 128 "03" (by decide) (by decide) (by decide)
    .suffix (.suffix .name hchained) hfixed
  have hfit : ArraySuffix.AllFit 1 [⟨2, .chained⟩, ⟨3, .fixed⟩] :=
    ⟨⟨by decide, by decide, by decide⟩, ⟨by decide, by decide, by decide⟩, trivial⟩
  obtain ⟨hiff, -, -, -, -⟩ := resolve_spells (.new {}) "uint8[~2][03]"
  obtain ⟨l, hl⟩ := hiff.mpr ⟨_, _, _, hspells, lookup_uint8 _, hfit⟩
  exact ⟨l, hl, (resolve_spells (.new {}) _).2.2.2.2 l hl⟩

end Catalog

end RecordFile
