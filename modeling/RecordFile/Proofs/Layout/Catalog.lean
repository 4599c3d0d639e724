import RecordFile.Proofs.Catalog.Calls
import RecordFile.Proofs.Layout.WellFormed

/-!
# Catalogs hold well-formed layouts

`Catalog.Built` are the catalogs that definitions lead to, and `Schema.Compiled` are the schemas
that such catalogs compile to. All their types are well formed (`Catalog.Built.wellFormed`), and
the root record of a compiled schema is not empty (`Schema.Compiled.size_pos`).
-/

namespace RecordFile

/-- The catalogs that a sequence of definitions and compilations leads to, whichever of them
succeed. -/
inductive Catalog.Built : Catalog → Prop
  | new (config : Config) : Built (.new config)
  | define {c : Catalog} (h : Built c) (name : String) (fields : List (String × String)) :
    Built (c.define name fields).2
  | defineArray {c : Catalog} (h : Built c) (name text : String) : Built (c.defineArray name text).2
  | compile {c : Catalog} (h : Built c) (root : String) : Built (c.compile root).2

/-- The schemas that catalogs compile to. -/
def Schema.Compiled (schema : Schema) : Prop :=
  ∃ c : Catalog, c.Built ∧ ∃ root, (c.compile root).1 = .ok schema

theorem Layout.WellFormed.arrayOf {base l : Layout} {suffixes : List ArraySuffix}
    (hb : base.WellFormed) (h : base.arrayOf suffixes = .ok l) : l.WellFormed := by
  induction suffixes generalizing base with
  | nil =>
    obtain rfl : base = l := by simpa [Layout.arrayOf] using h
    exact hb
  | cons suffix rest ih =>
    rw [Layout.arrayOf] at h
    cases ha : ArrayLayout.make? base suffix.capacity suffix.extent with
    | error e => simp [ha, bind, Except.bind] at h
    | ok a => exact ih (ArrayLayout.make?_wellFormed ha hb) (by simpa [ha, bind, Except.bind] using h)

namespace Catalog

/-- All types of the catalog are well formed. -/
def WellFormed (c : Catalog) : Prop := ∀ entry ∈ c.types, entry.2.WellFormed

namespace WellFormed

variable {c : Catalog}

theorem insert (h : c.WellFormed) (name : String) {l : Layout} (hl : l.WellFormed) :
    (c.insert name l).WellFormed := by
  intro entry hentry
  rcases Array.mem_push.mp hentry with hentry | rfl
  · exact h entry hentry
  · exact hl

theorem lookup (h : c.WellFormed) {name : String} {l : Layout} (hl : c.lookup name = some l) :
    l.WellFormed := by
  obtain ⟨_, hfound⟩ := mem_of_lookup hl
  exact h _ hfound

theorem resolve (h : c.WellFormed) {text : String} {l : Layout} (hl : c.resolve text = .ok l) :
    l.WellFormed := by
  obtain ⟨_, _, _, hbase, harray⟩ := resolve_eq_ok hl
  exact (h.lookup hbase).arrayOf harray

theorem new (config : Config) : (Catalog.new config).WellFormed := by
  have hfold : ∀ (named : List (String × Scalar)) (c : Catalog), c.WellFormed →
      (named.foldl (fun c p => c.insert p.1 (.scalar p.2)) c).WellFormed := by
    intro named
    induction named with
    | nil => exact fun c hc => hc
    | cons entry named ih => exact fun c hc => ih _ (hc.insert entry.1 (.scalar entry.2))
  exact hfold _ _ (by simp [WellFormed])

theorem define (h : c.WellFormed) (name : String) (fields : List (String × String)) :
    (c.define name fields).2.WellFormed := by
  obtain ⟨e, heq⟩ | ⟨resolved, r, -, hfields, hr, heq⟩ := c.define_cases name fields <;> rw [heq]
  · exact h
  · refine h.insert name (RecordLayout.make?_wellFormed hr fun f hf => ?_)
    obtain ⟨-, _, hf⟩ := (resolveFields_eq_ok hfields).2 f hf
    exact h.resolve hf

theorem defineArray (h : c.WellFormed) (name text : String) :
    (c.defineArray name text).2.WellFormed := by
  obtain ⟨e, heq⟩ | ⟨a, -, ha, heq⟩ := c.defineArray_cases name text <;> rw [heq]
  · exact h
  · exact h.insert name (h.resolve ha)

theorem compile (h : c.WellFormed) (root : String) : (c.compile root).2.WellFormed := by
  obtain ⟨e, heq⟩ | ⟨r, -, -, -, heq⟩ := c.compile_cases root <;> rw [heq]
  · exact h
  · exact h

end WellFormed

/-- Whatever is defined, every type of a catalog is well formed. -/
theorem Built.wellFormed {c : Catalog} (h : c.Built) : c.WellFormed := by
  induction h with
  | new config => exact .new config
  | define _ name fields ih => exact ih.define name fields
  | defineArray _ name text ih => exact ih.defineArray name text
  | compile _ root ih => exact ih.compile root

end Catalog

namespace Schema.Compiled

variable {schema : Schema}

theorem root_eq (h : schema.Compiled) :
    ∃ c : Catalog, c.Built ∧ ∃ root, c.lookup root = some schema.rootLayout ∧ 0 < schema.size := by
  obtain ⟨c, hc, root, h⟩ := h
  obtain ⟨e, heq⟩ | ⟨r, -, hroot, hpos, heq⟩ := c.compile_cases root
  · rw [heq] at h
    cases h
  · rw [heq] at h
    cases h
    exact ⟨c, hc, root, hroot, hpos⟩

/-- The root record of a compiled schema is well formed. -/
theorem wellFormed (h : schema.Compiled) : schema.rootLayout.WellFormed := by
  obtain ⟨c, hc, root, hroot, -⟩ := h.root_eq
  exact hc.wellFormed.lookup hroot

theorem size_pos (h : schema.Compiled) : 0 < schema.size := by
  obtain ⟨c, -, root, -, hpos⟩ := h.root_eq
  exact hpos

theorem size_lt (h : schema.Compiled) : schema.size < wordLimit := h.wellFormed.size_lt

end Schema.Compiled

/-! ## A small schema -/

namespace Catalog

theorem lookup_uint8 (config : Config) : (new config).lookup "uint8" = some (.scalar .uint8) := by
  have hindex : (new config).index["uint8"]? = some 5 := by
    simp [new, insert, Scalar.all, Scalar.aliases, Scalar.name, Std.HashMap.getElem_insert]
  have htype : (new config).types[5]? = some ("uint8", .scalar .uint8) := rfl
  simp [lookup, hindex, htype]

end Catalog

/-- A chained array of bytes, two to a block. -/
def ArrayLayout.bytePairs : ArrayLayout := ⟨.scalar .uint8, 2, .chained, 10, by decide⟩

/-- A byte and a chained array of bytes. -/
def RecordLayout.log : RecordLayout :=
  ⟨"Log", [⟨"count", .scalar .uint8, 0⟩, ⟨"items", .array .bytePairs, 1⟩], 11, true⟩

/-- The scalars and `RecordLayout.log`. -/
def Catalog.log : Catalog := (Catalog.new {}).insert "Log" (.record .log)

/-- A schema with `RecordLayout.log` as the root. -/
def Schema.log : Schema := ⟨.log, Catalog.log.types.toList, {}⟩

namespace Catalog

variable {text : String} {l : Layout} {r : RecordLayout}

/-- Defining a record of a byte and of what a type expression denotes. -/
theorem define_of_resolve (hitems : (new {}).resolve text = .ok l)
    (hmake : RecordLayout.make? "Log" [("count", .scalar .uint8), ("items", l)] = .ok r) :
    (new {}).define "Log" [("count", "uint8"), ("items", text)] =
      (.ok r, (new {}).insert "Log" (.record r)) := by
  have hdefinable : (new {}).checkDefinable "Log" = .ok () := by
    simp [checkDefinable, checkName, new, insert, Scalar.all, Scalar.aliases, Scalar.name]
  have hcount : (new {}).resolve "uint8" = .ok (.scalar .uint8) := by
    have hconfig : (new {}).config.defaultBlockCapacity = 128 := rfl
    have hread : TypeExpression.read? 128 "uint8" = some ⟨"uint8", []⟩ := by decide +kernel
    simp only [resolve, hconfig, hread, lookup_uint8, Layout.arrayOf]
  have hfields : (new {}).resolveFields [("count", "uint8"), ("items", text)] =
      .ok [("count", .scalar .uint8), ("items", l)] := by
    have hname : checkName "count" = .ok () := rfl
    have hname' : checkName "items" = .ok () := rfl
    simp only [resolveFields, hcount, hitems, hname, hname', bind, Except.bind]
  simp only [define, hdefinable, hfields, hmake, bind, Except.bind]

theorem compile_of_size (hsize : 0 < r.size) :
    ((new {}).insert "Log" (.record r)).compile "Log" =
      (.ok ⟨r, ((new {}).insert "Log" (.record r)).types.toList, {}⟩,
        { (new {}).insert "Log" (.record r) with compiled := true }) := by
  have hindex : ((new {}).insert "Log" (.record r)).index["Log"]? = some 14 := by
    simp only [insert, Std.HashMap.getElem?_insert_self]
    rfl
  have htype : ((new {}).insert "Log" (.record r)).types[14]? = some ("Log", .record r) := rfl
  have hlookup : ((new {}).insert "Log" (.record r)).lookup "Log" = some (.record r) := by
    simp [lookup, hindex, htype]
  have hopen : ((new {}).insert "Log" (.record r)).compiled = false := rfl
  simp only [compile, hopen, hlookup, if_pos hsize]
  rfl

theorem resolve_bytePairs : (new {}).resolve "uint8[~2]" = .ok (.array .bytePairs) := by
  have hconfig : (new {}).config.defaultBlockCapacity = 128 := rfl
  have hread : TypeExpression.read? 128 "uint8[~2]" = some ⟨"uint8", [⟨2, .chained⟩]⟩ := by
    decide +kernel
  simp only [resolve, hconfig, hread, lookup_uint8]
  rfl

theorem define_log :
    (new {}).define "Log" [("count", "uint8"), ("items", "uint8[~2]")] = (.ok .log, .log) :=
  define_of_resolve resolve_bytePairs rfl

theorem compile_log : log.compile "Log" = (.ok .log, { log with compiled := true }) :=
  compile_of_size (r := .log) (by decide)

end Catalog

/-- A record of a byte and of what a type expression denotes is the root of a schema. -/
theorem Schema.compiled_of_resolve {text : String} {l : Layout} {r : RecordLayout}
    (hitems : (Catalog.new {}).resolve text = .ok l)
    (hmake : RecordLayout.make? "Log" [("count", .scalar .uint8), ("items", l)] = .ok r)
    (hsize : 0 < r.size) :
    Compiled ⟨r, ((Catalog.new {}).insert "Log" (.record r)).types.toList, {}⟩ := by
  have hbuilt := (Catalog.Built.new {}).define "Log" [("count", "uint8"), ("items", text)]
  rw [Catalog.define_of_resolve hitems hmake] at hbuilt
  exact ⟨_, hbuilt, "Log", by rw [Catalog.compile_of_size hsize]⟩

theorem Schema.log_compiled : Schema.log.Compiled :=
  compiled_of_resolve Catalog.resolve_bytePairs rfl (by decide)

end RecordFile
