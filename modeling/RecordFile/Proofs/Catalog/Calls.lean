import RecordFile.Catalog

/-!
# What the operations of a catalog can do

One lemma per operation: it ends with an error and the catalog as it was, or what it checked holds
and the catalog is the one it says (`define_cases`, `defineArray_cases`, `compile_cases`).
`resolve_eq_ok` and `resolveFields_eq_ok` say what a resolved type and the resolved fields of a
record are.
-/

namespace RecordFile.Catalog

/-- A name that can be defined: it is not empty and free of dots and brackets. -/
def IsName (name : String) : Prop := name ≠ "" ∧ ∀ c ∈ name.toList, c ≠ '.' ∧ c ≠ '[' ∧ c ≠ ']'

instance (name : String) : Decidable (IsName name) :=
  decidable_of_iff (name ≠ "" ∧ name.toList.all (fun c => c ≠ '.' ∧ c ≠ '[' ∧ c ≠ ']') = true)
    (by simp [IsName])

variable {c : Catalog} {name text : String}

theorem checkName_eq_ok_iff : checkName name = .ok () ↔ IsName name := by
  have hbad : (name.isEmpty || name.toList.any fun c => c = '.' || c = '[' || c = ']') = true ↔
      ¬ IsName name := by
    simp only [IsName, Bool.or_eq_true, String.isEmpty_iff, List.any_eq_true, decide_eq_true_eq]
    grind
  rw [checkName]
  split
  · simpa using hbad.mp ‹_›
  · simpa using Decidable.not_not.mp (mt hbad.mpr ‹_›)

/-- A definition can be made of a proper name that is not taken, as long as the catalog is open. -/
theorem checkDefinable_eq_ok_iff :
    c.checkDefinable name = .ok () ↔ c.compiled = false ∧ IsName name ∧ c.index[name]? = none := by
  have hfree : c.index.contains name = false ↔ c.index[name]? = none := by
    rw [Std.HashMap.contains_eq_isSome_getElem?, Option.isSome_eq_false_iff, Option.isNone_iff_eq_none]
  rw [checkDefinable, ← checkName_eq_ok_iff, ← hfree]
  cases hc : c.compiled <;> cases hn : checkName name <;> cases hi : c.index.contains name <;>
    simp [bind, Except.bind, pure, Except.pure]

theorem checkDefinable_of_compiled (h : c.compiled = true) :
    c.checkDefinable name = .error .alreadyCompiled := by
  simp [checkDefinable, h, bind, Except.bind]

/-- The type of a name is one of the types of the catalog. -/
theorem mem_of_lookup {l : Layout} (h : c.lookup name = some l) :
    ∃ found, (found, l) ∈ c.types := by
  rw [lookup] at h
  obtain ⟨i, -, h⟩ := Option.bind_eq_some_iff.mp h
  obtain ⟨⟨found, layout⟩, hfound, h⟩ := Option.bind_eq_some_iff.mp h
  obtain rfl : layout = l := by simpa using h
  exact ⟨found, Array.mem_of_getElem? hfound⟩

/-- A resolved type is the arrays that the suffixes make of the type of that name. -/
theorem resolve_eq_ok {l : Layout} (h : c.resolve text = .ok l) :
    ∃ (base : String) (suffixes : List ArraySuffix) (layout : Layout),
      c.lookup base = some layout ∧ layout.arrayOf suffixes = .ok l := by
  rw [resolve] at h
  split at h
  · cases h
  rename_i e _
  split at h
  · cases h
  · rename_i layout hlookup
    exact ⟨e.base, e.suffixes, layout, hlookup, h⟩

/-- The resolved fields have the given names, which are proper ones, and resolved types. -/
theorem resolveFields_eq_ok {fields : List (String × String)} {resolved : List (String × Layout)}
    (h : c.resolveFields fields = .ok resolved) :
    resolved.map (·.1) = fields.map (·.1) ∧
      ∀ f ∈ resolved, IsName f.1 ∧ ∃ text, c.resolve text = .ok f.2 := by
  induction fields generalizing resolved with
  | nil =>
    obtain rfl : [] = resolved := by simpa [resolveFields] using h
    simp
  | cons field rest ih =>
    obtain ⟨name, text⟩ := field
    rw [resolveFields] at h
    cases hname : checkName name with
    | error e => simp [hname, bind, Except.bind] at h
    | ok _ =>
    cases hl : c.resolve text with
    | error e => simp [hname, hl, bind, Except.bind] at h
    | ok l =>
    cases hrest : c.resolveFields rest with
    | error e => simp [hname, hl, hrest, bind, Except.bind] at h
    | ok others =>
      obtain rfl : (name, l) :: others = resolved := by
        simpa [hname, hl, hrest, bind, Except.bind] using h
      obtain ⟨names, each⟩ := ih hrest
      exact ⟨by simp [names],
        List.forall_mem_cons.mpr ⟨⟨checkName_eq_ok_iff.mp hname, text, hl⟩, each⟩⟩

theorem define_cases (c : Catalog) (name : String) (fields : List (String × String)) :
    (∃ e, c.define name fields = (.error e, c)) ∨
      ∃ resolved r, c.checkDefinable name = .ok () ∧ c.resolveFields fields = .ok resolved ∧
        RecordLayout.make? name resolved = .ok r ∧
        c.define name fields = (.ok r, c.insert name (.record r)) := by
  rw [define]
  cases hdef : c.checkDefinable name with
  | error e => exact .inl ⟨e, by simp [bind, Except.bind]⟩
  | ok _ =>
  cases hres : c.resolveFields fields with
  | error e => exact .inl ⟨e, by simp [bind, Except.bind]⟩
  | ok resolved =>
  cases hr : RecordLayout.make? name resolved with
  | error e => exact .inl ⟨e, by simp [hr, bind, Except.bind]⟩
  | ok r => exact .inr ⟨resolved, r, rfl, rfl, hr, by simp [hr, bind, Except.bind]⟩

theorem defineArray_cases (c : Catalog) (name text : String) :
    (∃ e, c.defineArray name text = (.error e, c)) ∨
      ∃ a, c.checkDefinable name = .ok () ∧ c.resolve text = .ok (.array a) ∧
        c.defineArray name text = (.ok a, c.insert name (.array a)) := by
  rw [defineArray]
  cases hdef : c.checkDefinable name with
  | error e => exact .inl ⟨e, by simp [bind, Except.bind]⟩
  | ok _ =>
  cases hres : c.resolve text with
  | error e => exact .inl ⟨e, by simp [bind, Except.bind]⟩
  | ok l =>
  cases l with
  | scalar kind => exact .inl ⟨_, by simp [bind, Except.bind]; rfl⟩
  | record r => exact .inl ⟨_, by simp [bind, Except.bind]; rfl⟩
  | array a => exact .inr ⟨a, rfl, rfl, by simp [bind, Except.bind]⟩

theorem compile_cases (c : Catalog) (root : String) :
    (∃ e, c.compile root = (.error e, c)) ∨
      ∃ r, c.compiled = false ∧ c.lookup root = some (.record r) ∧ 0 < r.size ∧
        c.compile root = (.ok ⟨r, c.types.toList, c.config⟩, { c with compiled := true }) := by
  rw [compile]
  split
  · exact .inl ⟨_, rfl⟩
  rename_i hopen
  split
  · rename_i r hroot
    split
    · exact .inr ⟨r, Bool.eq_false_iff.mpr hopen, hroot, ‹_›, rfl⟩
    · exact .inl ⟨_, rfl⟩
  · exact .inl ⟨_, rfl⟩

end RecordFile.Catalog
