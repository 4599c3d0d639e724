import RecordFile.Path
import RecordFile.Proofs.Catalog.Regular
import RecordFile.Proofs.Text.Numeral

/-!
# Dotted text spells paths

`Layout.Spells` says which names the steps of a path go by: a field by its name, an element by any
numeral of its index. Reading dotted text and following steps are two walks over the schema;
`segments_eq_ok_iff` is that they agree, by induction on the segments. So dotted text compiles to a
path exactly if the path leads somewhere and the text is its names with dots between them
(`Schema.compilePath_spells`), every such path has a text, and two texts of one path differ at most in
the leading zeros of indices.
-/

namespace RecordFile

/-! ## Names of steps -/

namespace Layout

/-- The names that some steps go by: a field by its name, an element by any numeral of its index. -/
inductive Spells : Layout → List UInt64 → List String → Prop
  | here (l : Layout) : Spells l [] []
  | field {r : RecordLayout} {step : UInt64} {f : FieldLayout} {steps : List UInt64}
    {names : List String} (found : r.fields[step.toNat]? = some f)
    (below : Spells f.layout steps names) : Spells (.record r) (step :: steps) (f.name :: names)
  | element {a : ArrayLayout} {step : UInt64} {numeral : String} {steps : List UInt64}
    {names : List String} (isNumeral : Numeral.isNumeral numeral.toList)
    (number : Numeral.number numeral = step.toNat) (below : Spells a.element steps names) :
    Spells (.array a) (step :: steps) (numeral :: names)

/-- The positions of the fields of all records in a type are words. -/
def Addressable (l : Layout) : Prop := l.Every (fun r => r.fields.length ≤ wordLimit) fun _ => True

variable {l below : Layout} {path : Path} {text : String} {position : Nat} {step : UInt64}
  {steps : List UInt64} {name : String} {names : List String}

theorem spells_record_iff {r : RecordLayout} :
    (record r).Spells (step :: steps) (name :: names) ↔
      ∃ f, r.fields[step.toNat]? = some f ∧ f.name = name ∧ f.layout.Spells steps names := by
  constructor
  · rintro (_ | ⟨found, hbelow⟩)
    exact ⟨_, found, rfl, hbelow⟩
  · rintro ⟨f, found, rfl, hbelow⟩
    exact .field found hbelow

theorem spells_array_iff {a : ArrayLayout} :
    (array a).Spells (step :: steps) (name :: names) ↔
      (Numeral.isNumeral name.toList ∧ Numeral.number name = step.toNat) ∧
        a.element.Spells steps names := by
  constructor
  · rintro (_ | _ | ⟨hnumeral, hnumber, hbelow⟩)
    exact ⟨⟨hnumeral, hnumber⟩, hbelow⟩
  · rintro ⟨⟨hnumeral, hnumber⟩, hbelow⟩
    exact .element hnumeral hnumber hbelow

/-- A step goes by its name, and the steps behind it by theirs. -/
theorem spells_cons_iff (hchild : l.child path position step = .ok below) :
    l.Spells (step :: steps) (name :: names) ↔ l.Spells [step] [name] ∧ below.Spells steps names := by
  cases l with
  | scalar kind => exact absurd hchild child_scalar
  | record r =>
    obtain ⟨f, hf, rfl⟩ := child_record_eq_ok_iff.mp hchild
    simp [spells_record_iff, hf, Spells.here]
  | array a =>
    obtain ⟨-, rfl⟩ := child_array_eq_ok_iff.mp hchild
    simp [spells_array_iff, Spells.here]

end Layout

/-- The field of a name is the only one of that name. -/
theorem RecordLayout.Named.position?_eq_some_iff {r : RecordLayout} (h : r.Named) {name : String}
    {i : Nat} : r.position? name = some i ↔ ∃ f, r.fields[i]? = some f ∧ f.name = name := by
  rw [position?, List.findIdx?_eq_some_iff_getElem]
  constructor
  · rintro ⟨hi, hname, -⟩
    exact ⟨r.fields[i], List.getElem?_eq_getElem hi, by simpa using hname⟩
  · rintro ⟨f, hf, rfl⟩
    obtain ⟨hi, rfl⟩ := List.getElem?_eq_some_iff.mp hf
    refine ⟨hi, by simp, fun j hj hname => ?_⟩
    refine List.nodup_iff_getElem?_ne_getElem?.mp h.nodup j i hj (by simpa using hi) ?_
    have hlt : j < r.fields.length := by omega
    simpa [List.getElem?_eq_getElem hi, List.getElem?_eq_getElem hlt] using hname

namespace Layout

variable {l below : Layout} {path : Path} {text : String} {position : Nat} {step : UInt64}
  {steps : List UInt64} {name : String} {names : List String}

/-- A segment stands for a step exactly if the step can be made and goes by that name. -/
theorem segment_eq_ok_iff (hn : l.Named) (ha : l.Addressable) {piece : List Char} :
    l.segment text position piece = .ok (step, below) ↔
      l.child path position step = .ok below ∧ l.Spells [step] [String.ofList piece] := by
  cases l with
  | scalar kind => simp [segment, child]
  | record r =>
    cases hn with | record named _ =>
    cases ha with | record hcount _ =>
    rw [child_record_eq_ok_iff, spells_record_iff, segment]
    constructor
    · intro h
      split at h
      · rename_i i hi
        obtain ⟨f, hf, hname⟩ := named.position?_eq_some_iff.mp hi
        rw [hf] at h
        obtain ⟨rfl, rfl⟩ : UInt64.ofNat i = step ∧ f.layout = below := by simpa using h
        have hlt := (List.getElem?_eq_some_iff.mp hf).1
        have hstep : (UInt64.ofNat i).toNat = i :=
          UInt64.toNat_ofNat_of_lt' (Nat.lt_of_lt_of_le hlt hcount)
        rw [hstep]
        exact ⟨⟨f, hf, rfl⟩, f, hf, hname, .here _⟩
      · cases h
    · rintro ⟨⟨f, hf, rfl⟩, f', hf', hname, -⟩
      obtain rfl : f = f' := Option.some.inj (hf.symm.trans hf')
      rw [named.position?_eq_some_iff.mpr ⟨f, hf, hname⟩]
      simp [hf]
  | array a =>
    rw [child_array_eq_ok_iff, spells_array_iff, segment, String.toList_ofList]
    constructor
    · intro h
      split at h
      · cases h
      rename_i index hindex
      obtain ⟨hnumeral, hnumber, hlt⟩ := Numeral.value?_eq_some.mp hindex
      split at h
      · cases h
      obtain ⟨rfl, rfl⟩ : UInt64.ofNat index = step ∧ a.element = below := by simpa using h
      have hstep : (UInt64.ofNat index).toNat = index := UInt64.toNat_ofNat_of_lt' hlt
      rw [hstep]
      exact ⟨⟨‹_›, rfl⟩, ⟨hnumeral, hnumber⟩, .here _⟩
    · rintro ⟨⟨hin, rfl⟩, ⟨hnumeral, hnumber⟩, -⟩
      rw [Numeral.value?_eq_some.mpr ⟨hnumeral, hnumber, step.toNat_lt⟩]
      simp [hin]

theorem segments_cons {piece : List Char} {rest : List (List Char)} :
    l.segments text position (piece :: rest) = .ok steps ↔
      ∃ step below more, l.segment text position piece = .ok (step, below) ∧
        below.segments text (position + 1) rest = .ok more ∧ steps = step :: more := by
  rw [segments]
  cases hsegment : l.segment text position piece with
  | error e => simp [bind, Except.bind]
  | ok result =>
    obtain ⟨step, below⟩ := result
    cases hmore : below.segments text (position + 1) rest with
    | error e => simp [hmore, bind, Except.bind]
    | ok more => simp [hmore, bind, Except.bind, eq_comm]

theorem Spells.exists_cons (h : l.Spells steps (name :: names)) :
    ∃ step more, steps = step :: more := by
  cases h <;> exact ⟨_, _, rfl⟩

/-- Segments stand for steps exactly if the steps lead to a part and go by those names. -/
theorem segments_eq_ok_iff (hn : l.Named) (ha : l.Addressable) {pieces : List (List Char)} :
    l.segments text position pieces = .ok steps ↔
      (∃ l', l.descend path position steps = .ok l') ∧ l.Spells steps (pieces.map String.ofList) := by
  induction pieces generalizing l position steps with
  | nil =>
    constructor
    · intro h
      obtain rfl : [] = steps := by simpa [segments] using h
      exact ⟨⟨l, rfl⟩, .here l⟩
    · rintro ⟨-, hspells⟩
      cases hspells
      rfl
  | cons piece rest ih =>
    rw [segments_cons]
    constructor
    · rintro ⟨step, below, more, hsegment, hmore, rfl⟩
      obtain ⟨hchild, hstep⟩ := (segment_eq_ok_iff hn ha).mp hsegment
      obtain ⟨⟨l', hdescend⟩, hspells⟩ := (ih (hn.of_child hchild) (ha.of_child hchild)).mp hmore
      exact ⟨⟨l', descend_cons.mpr ⟨below, hchild, hdescend⟩⟩,
        (spells_cons_iff hchild).mpr ⟨hstep, hspells⟩⟩
    · rintro ⟨⟨l', hdescend⟩, hspells⟩
      obtain ⟨step, more, rfl⟩ := hspells.exists_cons
      obtain ⟨below, hchild, hdescend⟩ := descend_cons.mp hdescend
      obtain ⟨hstep, hspells⟩ := (spells_cons_iff hchild).mp hspells
      exact ⟨step, below, more, (segment_eq_ok_iff hn ha).mpr ⟨hchild, hstep⟩,
        (ih (hn.of_child hchild) (ha.of_child hchild)).mpr ⟨⟨l', hdescend⟩, hspells⟩, rfl⟩

/-! ## Names -/

/-- Names are not empty and free of dots. -/
theorem Spells.proper (hn : l.Named) (h : l.Spells steps names) :
    ∀ name ∈ names, name ≠ "" ∧ '.' ∉ name.toList := by
  induction h with
  | here => simp
  | field found _ ih =>
    cases hn with | record named fields =>
    have hmem := List.mem_of_getElem? found
    obtain ⟨hne, hfree⟩ := named.isName _ hmem
    exact List.forall_mem_cons.mpr ⟨⟨hne, fun hdot => (hfree '.' hdot).1 rfl⟩, ih (fields _ hmem)⟩
  | element hnumeral _ _ ih =>
    cases hn with | array _ element =>
    obtain ⟨hne, hdigits⟩ := Numeral.isNumeral_iff.mp hnumeral
    refine List.forall_mem_cons.mpr ⟨⟨fun hempty => hne (by simp [hempty]), fun hdot => ?_⟩, ih element⟩
    exact absurd (hdigits '.' hdot) (by decide)

theorem Spells.length_eq (h : l.Spells steps names) : names.length = steps.length := by
  induction h with
  | here => rfl
  | field _ _ ih => simp [ih]
  | element _ _ _ ih => simp [ih]

/-- Steps that can be made have names. -/
theorem exists_spells {l' : Layout} (h : l.descend path position steps = .ok l') :
    ∃ names, l.Spells steps names := by
  induction steps generalizing l position with
  | nil => exact ⟨[], .here l⟩
  | cons step steps ih =>
    obtain ⟨below, hchild, hdescend⟩ := descend_cons.mp h
    obtain ⟨names, hnames⟩ := ih hdescend
    cases l with
    | scalar kind => exact absurd hchild child_scalar
    | record r =>
      obtain ⟨f, hf, rfl⟩ := child_record_eq_ok_iff.mp hchild
      exact ⟨f.name :: names, .field hf hnames⟩
    | array a =>
      obtain ⟨-, rfl⟩ := child_array_eq_ok_iff.mp hchild
      obtain ⟨hnumeral, hnumber⟩ := Numeral.isNumeral_toString step.toNat
      exact ⟨toString step.toNat :: names, .element hnumeral hnumber hnames⟩

/-- The names of the same steps are the same, up to leading zeros of the indices of elements. -/
theorem Spells.eq_or_significant_eq {l' : Layout} {names' : List String}
    (hdescend : l.descend path position steps = .ok l') (h : l.Spells steps names)
    (h' : l.Spells steps names') {i : Nat} {name' : String} (hi : names[i]? = some name)
    (hi' : names'[i]? = some name') :
    name = name' ∨ (∃ a, l.descend path position (steps.take i) = .ok (.array a)) ∧
      Numeral.significant name = Numeral.significant name' := by
  induction h generalizing position names' i with
  | here => cases hi
  | @field r step f steps names found below ih =>
    cases h' with | field found' below' =>
    obtain rfl : f = _ := Option.some.inj (found.symm.trans found')
    rw [descend_record_of_some found] at hdescend
    cases i with
    | zero => exact .inl (Option.some.inj (hi.symm.trans hi'))
    | succ i =>
      rw [List.take_succ_cons, descend_record_of_some found]
      exact ih hdescend below' hi hi'
  | @element a step numeral steps names hnumeral hnumber below ih =>
    cases h' with | element hnumeral' hnumber' below' =>
    obtain ⟨_, hchild, hdescend⟩ := descend_cons.mp hdescend
    obtain ⟨hin, rfl⟩ := child_array_eq_ok_iff.mp hchild
    cases i with
    | zero =>
      obtain ⟨rfl, rfl⟩ : numeral = name ∧ _ = name' := ⟨Option.some.inj hi, Option.some.inj hi'⟩
      exact .inr ⟨⟨a, rfl⟩, (Numeral.significant_eq_iff hnumeral hnumeral').mpr
        (hnumber.trans hnumber'.symm)⟩
    | succ i =>
      rw [List.take_succ_cons, descend_array hin]
      exact ih hdescend below' hi hi'

end Layout

/-! ## Dotted text -/

namespace Segments

theorem join_eq_intercalate (separator : Char) (pieces : List (List Char)) :
    join separator pieces = [separator].intercalate pieces := by
  induction pieces with
  | nil => rfl
  | cons piece pieces ih =>
    cases pieces with
    | nil => simp [join]
    | cons next more => simp [join, ih, List.intercalate_cons_cons]

/-- The segments of names with dots between them are the names. -/
theorem split_intercalate {names : List String} (hne : names ≠ [])
    (h : ∀ name ∈ names, '.' ∉ name.toList) :
    split '.' (".".intercalate names).toList = names.map String.toList := by
  rw [String.toList_intercalate]
  refine (join_eq_intercalate '.' _).symm ▸ split_join (by simpa using hne) fun piece hpiece => ?_
  obtain ⟨name, hname, rfl⟩ := List.mem_map.mp hpiece
  exact h name hname

/-- A text is its segments with dots between them. -/
theorem intercalate_split (text : String) :
    ".".intercalate ((split '.' text.toList).map String.ofList) = text := by
  have hpieces : ((split '.' text.toList).map String.ofList).map String.toList =
      split '.' text.toList := by
    rw [List.map_map]
    exact (List.map_congr_left fun _ _ => String.toList_ofList).trans (List.map_id _)
  rw [← String.toList_inj, String.toList_intercalate, hpieces]
  exact (join_eq_intercalate '.' _).symm.trans (join_split '.' text.toList)

end Segments

namespace Schema

variable {schema : Schema} {text : String} {p : Path}

/-- A text that compiles to a path is the names of its steps with dots between them. -/
theorem exists_names (hn : schema.rootLayout.Named) (ha : schema.rootLayout.Addressable)
    (h : schema.compilePath text = .ok p) : (∃ l, schema.resolve p = .ok l) ∧
      ∃ names, schema.rootLayout.Spells p.steps names ∧ text = ".".intercalate names := by
  rw [compilePath] at h
  split at h
  · rename_i hempty
    obtain rfl : Path.root = p := Except.ok.inj h
    exact ⟨⟨_, rfl⟩, [], .here _, by simpa using hempty⟩
  · cases hsteps : schema.rootLayout.segments text 0 (Segments.split '.' text.toList) with
    | error e => simp [hsteps, bind, Except.bind] at h
    | ok steps =>
      obtain rfl : ⟨steps⟩ = p := by simpa [hsteps, bind, Except.bind] using h
      obtain ⟨hresolve, hspells⟩ : (∃ l, schema.resolve ⟨steps⟩ = .ok l) ∧ _ :=
        (Layout.segments_eq_ok_iff hn ha).mp hsteps
      exact ⟨hresolve, _, hspells, (Segments.intercalate_split text).symm⟩

/-- The names of the steps of a path that leads to a part compile to it. -/
theorem compilePath_intercalate (hn : schema.rootLayout.Named)
    (ha : schema.rootLayout.Addressable) {l : Layout} (hp : schema.resolve p = .ok l)
    {names : List String} (hspells : schema.rootLayout.Spells p.steps names) :
    schema.compilePath (".".intercalate names) = .ok p := by
  cases names with
  | nil =>
    obtain rfl : p = .root := by
      cases p
      cases hspells
      rfl
    rfl
  | cons name names =>
    have hproper := hspells.proper hn
    have hsplit := Segments.split_intercalate (List.cons_ne_nil name names)
      fun other hother => (hproper other hother).2
    have hnonempty : ".".intercalate (name :: names) ≠ "" := by
      intro hempty
      rw [hempty] at hsplit
      obtain ⟨hname, -⟩ : [] = name.toList ∧ [] = names.map String.toList := List.cons.inj hsplit
      exact (hproper name List.mem_cons_self).1 (by simpa using hname.symm)
    have hpieces : ((name :: names).map String.toList).map String.ofList = name :: names := by
      rw [List.map_map]
      exact (List.map_congr_left fun _ _ => String.ofList_toList).trans (List.map_id _)
    rw [compilePath, if_neg (by simpa using hnonempty), hsplit,
      (Layout.segments_eq_ok_iff hn ha).mpr ⟨⟨l, hp⟩, hpieces.symm ▸ hspells⟩]
    rfl

/-- Dotted text compiles to a path exactly if the path leads to a part and the text is the names of
its steps with dots between them. -/
theorem compilePath_spells (hschema : schema.Compiled) (ha : schema.rootLayout.Addressable) :
    (∀ text p, schema.compilePath text = .ok p ↔ (∃ l, schema.resolve p = .ok l) ∧
      (text = "" ∧ p = .root ∨ ∃ names, names ≠ [] ∧ schema.rootLayout.Spells p.steps names ∧
        text = ".".intercalate names)) ∧
    (∀ p l, schema.resolve p = .ok l → ∃ text, schema.compilePath text = .ok p) ∧
    ∀ text text' p, schema.compilePath text = .ok p → schema.compilePath text' = .ok p →
      ∃ names names', text = ".".intercalate names ∧ text' = ".".intercalate names' ∧
        names.length = p.length ∧ names'.length = p.length ∧
        ∀ (i : Nat) (name name' : String), names[i]? = some name → names'[i]? = some name' →
          name = name' ∨ (∃ a, schema.resolve ⟨p.steps.take i⟩ = .ok (.array a)) ∧
            Numeral.significant name = Numeral.significant name' := by
  have hn := hschema.named
  refine ⟨fun text p => ⟨fun h => ?_, ?_⟩, fun p l hp => ?_, fun text text' p h h' => ?_⟩
  · obtain ⟨hp, names, hspells, rfl⟩ := exists_names hn ha h
    refine ⟨hp, ?_⟩
    cases names with
    | nil =>
      cases p
      cases hspells
      exact .inl ⟨rfl, rfl⟩
    | cons name names => exact .inr ⟨name :: names, nofun, hspells, rfl⟩
  · rintro ⟨⟨l, hp⟩, ⟨rfl, rfl⟩ | ⟨names, -, hspells, rfl⟩⟩
    · rfl
    · exact compilePath_intercalate hn ha hp hspells
  · obtain ⟨names, hspells⟩ := Layout.exists_spells hp
    exact ⟨_, compilePath_intercalate hn ha hp hspells⟩
  · obtain ⟨⟨l, hp⟩, names, hspells, rfl⟩ := exists_names hn ha h
    obtain ⟨-, names', hspells', rfl⟩ := exists_names hn ha h'
    refine ⟨names, names', rfl, rfl, hspells.length_eq, hspells'.length_eq,
      fun i name name' hi hi' => ?_⟩
    refine (hspells.eq_or_significant_eq hp hspells' hi hi').imp_right fun ⟨⟨a, ha⟩, hsame⟩ => ?_
    exact ⟨⟨a, Layout.descend_congr ha⟩, hsame⟩

theorem log_addressable : log.rootLayout.Addressable := by
  refine .record (by decide) fun f hf => ?_
  obtain rfl | rfl : f = ⟨"count", .scalar .uint8, 0⟩ ∨ f = ⟨"items", .array .bytePairs, 1⟩ := by
    simpa [rootLayout, log, RecordLayout.log] using hf
  · exact .scalar _
  · exact .array trivial (.scalar _)

theorem compilePath_spells_log :
    (∃ l, log.resolve ⟨[1, 5]⟩ = .ok l) ∧ log.compilePath "items.05" = .ok ⟨[1, 5]⟩ :=
  have hp : log.resolve ⟨[1, 5]⟩ = .ok (.scalar .uint8) := rfl
  have hspells : log.rootLayout.Spells [1, 5] ["items", "05"] :=
    .field (f := ⟨"items", .array .bytePairs, 1⟩) rfl (.element rfl rfl (.here _))
  ⟨⟨_, hp⟩, ((compilePath_spells log_compiled log_addressable).1 "items.05" ⟨[1, 5]⟩).mpr
    ⟨⟨_, hp⟩, .inr ⟨_, by simp, hspells, rfl⟩⟩⟩

end Schema

end RecordFile
