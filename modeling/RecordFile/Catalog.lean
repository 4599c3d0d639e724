import RecordFile.Layout.Expression
import RecordFile.Schema
import Std.Data.HashMap

/-!
# Catalogs

A catalog collects type definitions until it is compiled. It starts with the scalar kinds under
their names and aliases. A type is resolved when the definition that uses it is made, so a type can
only be built from types defined before it. Compiling picks the root record, gives the schema and
closes the catalog.

Every operation answers with its result or error and with the catalog afterwards; after an error
the catalog is the one before.
-/

namespace RecordFile

/-- Type definitions by name. -/
structure Catalog where
  config : Config
  /-- In the order of definition. -/
  types : Array (String × Layout)
  /-- Where in `types` a name stands. -/
  index : Std.HashMap String Nat
  /-- Whether a root has been picked. -/
  compiled : Bool

namespace Catalog

/-- The catalog with one type more. -/
def insert (c : Catalog) (name : String) (layout : Layout) : Catalog :=
  { c with types := c.types.push (name, layout), index := c.index.insert name c.types.size }

/-- The catalog of the scalar kinds. -/
def new (config : Config) : Catalog :=
  let named := Scalar.all.map (fun k => (k.name, k)) ++ Scalar.aliases
  named.foldl (fun c (name, k) => c.insert name (.scalar k)) ⟨config, #[], ∅, false⟩

/-- The type of that name. -/
def lookup (c : Catalog) (name : String) : Option Layout := do
  let (_, layout) ← c.types[← c.index[name]?]?
  some layout

/-- A name is not empty and holds no character that paths and type expressions use. -/
def checkName (name : String) : Except Error Unit :=
  if name.isEmpty || name.toList.any (fun c => c = '.' || c = '[' || c = ']') then
    .error (.invalidName name)
  else .ok ()

/-- Whether a definition of that name can be made. -/
def checkDefinable (c : Catalog) (name : String) : Except Error Unit := do
  if c.compiled then .error .alreadyCompiled
  checkName name
  if c.index.contains name then .error (.duplicateType name)

/-- The type that a type expression denotes. -/
def resolve (c : Catalog) (text : String) : Except Error Layout :=
  match TypeExpression.read? c.config.defaultBlockCapacity text with
  | none => .error (.invalidArrayLength text)
  | some e =>
    match c.lookup e.base with
    | none => .error (.unknownType e.base)
    | some layout => layout.arrayOf e.suffixes

/-- The fields of a record, their names checked and their types resolved. -/
def resolveFields (c : Catalog) : List (String × String) → Except Error (List (String × Layout))
  | [] => .ok []
  | (name, text) :: rest => do
    checkName name
    let layout ← c.resolve text
    let fields ← c.resolveFields rest
    .ok ((name, layout) :: fields)

/-- Defines a record with the given fields, each a name and a type expression. -/
def define (c : Catalog) (name : String) (fields : List (String × String)) :
    Except Error RecordLayout × Catalog :=
  let made : Except Error RecordLayout := do
    c.checkDefinable name
    RecordLayout.make? name (← c.resolveFields fields)
  match made with
  | .ok r => (.ok r, c.insert name (.record r))
  | .error e => (.error e, c)

/-- Gives a name to an array type. -/
def defineArray (c : Catalog) (name text : String) : Except Error ArrayLayout × Catalog :=
  let made : Except Error ArrayLayout := do
    c.checkDefinable name
    match ← c.resolve text with
    | .array a => .ok a
    | _ => .error (.invalidArrayLength text)
  match made with
  | .ok a => (.ok a, c.insert name (.array a))
  | .error e => (.error e, c)

/-- Picks the root, a record that is not empty, and closes the catalog. -/
def compile (c : Catalog) (root : String) : Except Error Schema × Catalog :=
  if c.compiled then (.error .alreadyCompiled, c)
  else match c.lookup root with
    | some (.record r) =>
      if 0 < r.size then (.ok ⟨r, c.types.toList, c.config⟩, { c with compiled := true })
      else (.error (.unknownType root), c)
    | _ => (.error (.unknownType root), c)

end Catalog

end RecordFile
