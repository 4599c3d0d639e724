import RecordFile.Proofs.Catalog.Regular

/-!
# Runs of a catalog

A run makes calls to a new catalog, whatever they answer, and keeps a log of the answers
(`Catalog.run`). `Call.perform_cases` is what one call can do: fail and change nothing, resolve a
type, add a type, or close the catalog. By induction over the calls, the catalog is regular all the
time, its names are those of the scalar kinds and of the definitions that succeeded, in order, and
once a schema is compiled nothing changes any more (`regular_run`).
-/

namespace RecordFile.Catalog

/-- A call to a catalog. -/
inductive Call where
  | define (name : String) (fields : List (String × String))
  | defineArray (name text : String)
  | resolve (text : String)
  | compile (root : String)

/-- What a call that succeeds gives. -/
inductive Product where
  | record (r : RecordLayout)
  | array (a : ArrayLayout)
  | type (l : Layout)
  | schema (schema : Schema)

namespace Call

/-- What the call gives, and the catalog afterwards. -/
def perform (c : Catalog) : Call → Except Error Product × Catalog
  | .define name fields => let (result, c) := c.define name fields; (result.map .record, c)
  | .defineArray name text => let (result, c) := c.defineArray name text; (result.map .array, c)
  | .resolve text => ((c.resolve text).map .type, c)
  | .compile root => let (result, c) := c.compile root; (result.map .schema, c)

/-- The name that the call is to define. -/
def name? : Call → Option String
  | .define name _ => some name
  | .defineArray name _ => some name
  | .resolve _ => none
  | .compile _ => none

end Call

/-- The answers to some calls one after the other, and the catalog afterwards. -/
def run : Catalog → List Call → List (Call × Except Error Product) × Catalog
  | c, [] => ([], c)
  | c, call :: calls =>
    let (result, c) := call.perform c
    let (log, c) := c.run calls
    ((call, result) :: log, c)

/-- The names of the definitions that succeeded, in order. -/
def definitions : List (Call × Except Error Product) → List String
  | [] => []
  | (call, .ok _) :: log => call.name?.toList ++ definitions log
  | (_, .error _) :: log => definitions log

/-- The names of all types, in the order of their definition. -/
def typeNames (c : Catalog) : List String := c.types.toList.map (·.1)

/-- The names of the scalar kinds and their aliases. -/
def scalarNames : List String := Scalar.all.map Scalar.name ++ Scalar.aliases.map (·.1)

/-! ## One call -/

/-- What a call can do. -/
theorem Call.perform_cases (c : Catalog) (call : Call) :
    (∃ e, call.perform c = (.error e, c)) ∨
      (∃ text l, call = .resolve text ∧ call.perform c = (.ok (.type l), c)) ∨
      (∃ name l product, call.name? = some name ∧ (∀ schema, product ≠ .schema schema) ∧
        c.checkDefinable name = .ok () ∧ call.perform c = (.ok product, c.insert name l)) ∨
      ∃ root r, call = .compile root ∧ c.compiled = false ∧
        call.perform c = (.ok (.schema ⟨r, c.types.toList, c.config⟩), { c with compiled := true }) := by
  cases call with
  | define name fields =>
    obtain ⟨e, heq⟩ | ⟨_, r, hdef, -, -, heq⟩ := c.define_cases name fields
    · exact .inl ⟨e, by simp [perform, heq, Except.map]⟩
    · exact .inr (.inr (.inl ⟨name, .record r, .record r, rfl, nofun, hdef,
        by simp [perform, heq, Except.map]⟩))
  | defineArray name text =>
    obtain ⟨e, heq⟩ | ⟨a, hdef, -, heq⟩ := c.defineArray_cases name text
    · exact .inl ⟨e, by simp [perform, heq, Except.map]⟩
    · exact .inr (.inr (.inl ⟨name, .array a, .array a, rfl, nofun, hdef,
        by simp [perform, heq, Except.map]⟩))
  | resolve text =>
    cases h : c.resolve text with
    | error e => exact .inl ⟨e, by simp [perform, h, Except.map]⟩
    | ok l => exact .inr (.inl ⟨text, l, rfl, by simp [perform, h, Except.map]⟩)
  | compile root =>
    obtain ⟨e, heq⟩ | ⟨r, hopen, -, -, heq⟩ := c.compile_cases root
    · exact .inl ⟨e, by simp [perform, heq, Except.map]⟩
    · exact .inr (.inr (.inr ⟨root, r, rfl, hopen, by simp [perform, heq, Except.map]⟩))

variable {c : Catalog} {call : Call}

theorem Regular.perform (h : c.Regular) (call : Call) : (call.perform c).2.Regular := by
  cases call with
  | define name fields => exact h.define name fields
  | defineArray name text => exact h.defineArray name text
  | resolve text => exact h
  | compile root => exact h.compile root

/-- A call that fails changes nothing. -/
theorem Call.perform_error {e : Error} (h : (call.perform c).1 = .error e) :
    (call.perform c).2 = c := by
  obtain ⟨_, heq⟩ | ⟨_, _, -, heq⟩ | ⟨_, _, _, -, -, -, heq⟩ | ⟨_, _, -, -, heq⟩ :=
    call.perform_cases c <;> simp_all

/-- A closed catalog refuses all that would change it. -/
theorem Call.perform_of_compiled (h : c.compiled = true) :
    (call.perform c).2 = c ∧
      ((∀ text, call ≠ .resolve text) → call.perform c = (.error .alreadyCompiled, c)) := by
  cases call with
  | define name fields =>
    simp [perform, Catalog.define, checkDefinable_of_compiled h, bind, Except.bind, Except.map]
  | defineArray name text =>
    simp [perform, Catalog.defineArray, checkDefinable_of_compiled h, bind, Except.bind, Except.map]
  | resolve text => simp [perform]
  | compile root => simp [perform, Catalog.compile, h, Except.map]

/-! ## Runs -/

theorem Regular.run (h : c.Regular) (calls : List Call) : (c.run calls).2.Regular := by
  induction calls generalizing c with
  | nil => exact h
  | cons call calls ih => exact ih (h.perform call)

theorem run_cons (c : Catalog) (call : Call) (calls : List Call) :
    c.run (call :: calls) =
      ((call, (call.perform c).1) :: ((call.perform c).2.run calls).1,
        ((call.perform c).2.run calls).2) := rfl

/-- A run adds types behind those there are, one for each definition that succeeds. -/
theorem types_run (c : Catalog) (calls : List Call) :
    ∃ added : List (String × Layout), (c.run calls).2.types.toList = c.types.toList ++ added ∧
      added.map (·.1) = definitions (c.run calls).1 := by
  induction calls generalizing c with
  | nil => exact ⟨[], by simp [run, definitions]⟩
  | cons call calls ih =>
    obtain ⟨added, htypes, hnames⟩ := ih (call.perform c).2
    rw [run_cons]
    obtain ⟨_, heq⟩ | ⟨_, _, rfl, heq⟩ | ⟨name, l, _, hname, -, -, heq⟩ | ⟨_, _, rfl, -, heq⟩ :=
      call.perform_cases c <;> simp only [heq] at htypes hnames ⊢
    · exact ⟨added, htypes, hnames⟩
    · exact ⟨added, htypes, by simpa [definitions, Call.name?] using hnames⟩
    · refine ⟨(name, l) :: added, ?_, by simpa [definitions, hname] using hnames⟩
      rw [htypes, insert, Array.toList_push, List.append_assoc, List.singleton_append]
    · exact ⟨added, htypes, by simpa [definitions, Call.name?] using hnames⟩

theorem run_of_compiled (h : c.compiled = true) (calls : List Call) : (c.run calls).2 = c := by
  induction calls with
  | nil => rfl
  | cons call calls ih =>
    rw [run_cons, (Call.perform_of_compiled h).1]
    exact ih

/-- Only compiling gives a schema, and it closes the catalog. -/
theorem Call.perform_schema {schema : Schema} (h : (call.perform c).1 = .ok (.schema schema)) :
    (call.perform c).2.compiled = true ∧ (call.perform c).2.types.toList = schema.types := by
  obtain ⟨_, heq⟩ | ⟨_, _, -, heq⟩ | ⟨_, _, product, -, hother, -, heq⟩ | ⟨_, _, -, -, heq⟩ :=
    call.perform_cases c <;> rw [heq] at h ⊢
  · cases h
  · cases h
  · exact absurd (Except.ok.inj h) (hother schema)
  · cases h
    exact ⟨rfl, rfl⟩

/-- The catalog that a schema was compiled from has the types of the schema and stays closed. -/
theorem run_of_schema {calls : List Call} {schema : Schema}
    (h : (call, .ok (.schema schema)) ∈ (c.run calls).1) :
    (c.run calls).2.compiled = true ∧ (c.run calls).2.types.toList = schema.types := by
  induction calls generalizing c with
  | nil => cases h
  | cons first calls ih =>
    rw [run_cons] at h ⊢
    rcases List.mem_cons.mp h with hfirst | hlater
    · obtain ⟨rfl, hresult⟩ := Prod.mk.inj hfirst
      obtain ⟨hclosed, htypes⟩ := Call.perform_schema hresult.symm
      simp only [run_of_compiled hclosed]
      exact ⟨hclosed, htypes⟩
    · exact ih hlater

/-! ## Runs of a new catalog -/

theorem typeNames_run_new (config : Config) (calls : List Call) :
    ((new config).run calls).2.typeNames =
      scalarNames ++ definitions ((new config).run calls).1 := by
  obtain ⟨added, htypes, hnames⟩ := types_run (new config) calls
  rw [typeNames, htypes, List.map_append, hnames]
  rfl

/-- A new catalog lists the scalar kinds under their names and aliases. -/
theorem types_new (config : Config) :
    (new config).types.toList =
      (Scalar.all.map (fun k => (k.name, k)) ++ Scalar.aliases).map fun p => (p.1, .scalar p.2) :=
  rfl

theorem mem_types_new {config : Config} {name : String} {k : Scalar}
    (h : Scalar.ofName? name = some k) : (name, .scalar k) ∈ (new config).types := by
  rw [← Array.mem_toList_iff, types_new]
  refine List.mem_map.mpr ⟨(name, k), ?_, rfl⟩
  rw [List.mem_append]
  rw [Scalar.ofName?, Option.orElse_eq_orElse, Option.orElse_eq_or, Option.or_eq_some_iff] at h
  rcases h with hname | ⟨-, halias⟩
  · obtain rfl : k.name = name := by simpa using List.find?_some hname
    exact .inl (List.mem_map_of_mem (Scalar.mem_all k))
  · obtain ⟨⟨other, kind⟩, hfound, rfl⟩ := Option.map_eq_some_iff.mp halias
    obtain rfl : other = name := by simpa using List.find?_some hfound
    exact .inr (List.mem_of_find?_eq_some hfound)

/-- A scalar kind is found under its names, whatever is defined. -/
theorem lookup_scalar_run {config : Config} {calls : List Call} {name : String} {k : Scalar}
    (h : Scalar.ofName? name = some k) :
    ((new config).run calls).2.lookup name = some (.scalar k) := by
  rw [((Regular.new config).run calls).lookup_eq_some_iff, ← Array.mem_toList_iff]
  obtain ⟨added, htypes, -⟩ := types_run (new config) calls
  rw [htypes]
  exact List.mem_append_left _ (Array.mem_toList_iff.mpr (mem_types_new h))

/-- Whatever is called, in whatever order and with whatever success: the catalog is regular and
finds every scalar kind under its names, a call that fails changes nothing, and once a schema was
compiled nothing changes at all. The schema then has the types of the catalog: those of the scalar
kinds and those of the definitions that succeeded, in order. -/
theorem regular_run {config : Config} {calls : List Call} {log : List (Call × Except Error Product)}
    {c : Catalog} (hrun : (new config).run calls = (log, c)) :
    c.Regular ∧
    (∀ name k, Scalar.ofName? name = some k → c.lookup name = some (.scalar k)) ∧
    (∀ (call : Call) e, (call.perform c).1 = .error e → (call.perform c).2 = c) ∧
    ∀ call schema, (call, .ok (.schema schema)) ∈ log →
      (∀ next : Call, (next.perform c).2 = c ∧
        ((∀ text, next ≠ .resolve text) → next.perform c = (.error .alreadyCompiled, c))) ∧
      (∀ name, schema.lookup name = c.lookup name) ∧
      schema.typeNames = scalarNames ++ definitions log := by
  have hregular := (Regular.new config).run calls
  have hscalars := @lookup_scalar_run config calls
  have hnames := typeNames_run_new config calls
  have hschema := fun call schema => @run_of_schema (new config) call calls schema
  rw [hrun] at hregular hscalars hnames hschema
  refine ⟨hregular, fun _ _ => hscalars, fun _ _ => Call.perform_error, fun call schema hmem => ?_⟩
  obtain ⟨hclosed, htypes⟩ := hschema call schema hmem
  refine ⟨fun next => Call.perform_of_compiled hclosed, fun name => ?_, ?_⟩
  · rw [Schema.lookup, ← htypes]
    exact hregular.lookup_toList name
  · rw [Schema.typeNames, ← htypes]
    exact hnames

theorem regular_run_log :
    Call.perform { log with compiled := true } (.define "Other" []) =
      (.error .alreadyCompiled, { log with compiled := true }) ∧
    Schema.log.typeNames = scalarNames ++ ["Log"] := by
  have hrun : (new {}).run [.define "Log" [("count", "uint8"), ("items", "uint8[~2]")],
      .compile "Log", .define "Log" []] =
      ([(.define "Log" [("count", "uint8"), ("items", "uint8[~2]")], .ok (.record .log)),
        (.compile "Log", .ok (.schema .log)), (.define "Log" [], .error .alreadyCompiled)],
      { log with compiled := true }) := by
    have hclosed : ({ log with compiled := true } : Catalog).define "Log" [] =
      (.error .alreadyCompiled, { log with compiled := true }) := rfl
    simp only [run, Call.perform, define_log, compile_log, hclosed, Except.map]
  obtain ⟨hclosed, -, hnames⟩ := (regular_run hrun).2.2.2 (.compile "Log") .log (by simp)
  exact ⟨(hclosed (.define "Other" [])).2 nofun, hnames⟩

end RecordFile.Catalog
