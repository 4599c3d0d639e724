/-!
# TOML documents

A document is a table: its entries in order, each key once. Tables remember how they came about,
because that decides who may still add to them. Floating point numbers and times are kept as they
are written.
-/

namespace RecordFile.Toml

/-- How a table came about. -/
inductive Origin where
  /-- From a header of its own. -/
  | header
  /-- On the way to another table's header. -/
  | parent
  /-- On the way to a dotted key. -/
  | dotted
  /-- Between braces. -/
  | inline
  deriving DecidableEq, Repr

/-- A value, a table or an array of tables. -/
inductive Node where
  | string (text : String)
  | integer (n : Int)
  | float (text : String)
  | boolean (b : Bool)
  | time (text : String)
  | array (items : List Node)
  | table (origin : Origin) (entries : List (String × Node))
  /-- An array of tables, the one that further entries go to apart. -/
  | tables (latest : List (String × Node)) (earlier : List (List (String × Node)))

/-- The entries of a table. -/
abbrev Entries := List (String × Node)

/-- A key: the tables on the way and the name of the entry. -/
structure Key where
  parents : List String
  name : String
  deriving DecidableEq, Repr

namespace Entries

/-- The table with the entry `name` replaced. -/
def replace (name : String) (node : Node) (entries : Entries) : Entries :=
  entries.map fun (n, v) => if n = name then (n, node) else (n, v)

/-- The table with one entry more; its key has to be new. -/
def add (name : String) (node : Node) (entries : Entries) : Option Entries :=
  match entries.lookup name with
  | none => some (entries ++ [(name, node)])
  | some _ => none

/-- The table with one more entry under a dotted key. The key may pass through tables that dotted
keys or headers of other tables brought about, and may add to tables of dotted keys only. -/
def assign (name : String) (node : Node) : List String → Entries → Option Entries
  | [], entries => entries.add name node
  | step :: steps, entries =>
    match entries.lookup step with
    | none => do
      let inner ← assign name node steps []
      some (entries ++ [(step, .table .dotted inner)])
    | some (.table origin inner) =>
      if origin = .dotted ∨ (origin = .parent ∧ steps ≠ []) then do
        let inner ← assign name node steps inner
        some (entries.replace step (.table origin inner))
      else none
    | some (.tables latest earlier) =>
      if steps ≠ [] then do
        let latest ← assign name node steps latest
        some (entries.replace step (.tables latest earlier))
      else none
    | some _ => none

/-- The table with the table at `path` changed by `change`. Tables that do not exist yet come about
on the way; of an array of tables the latest one is meant. -/
def changeAt (change : Entries → Option Entries) : List String → Entries → Option Entries
  | [], entries => change entries
  | step :: steps, entries =>
    match entries.lookup step with
    | none => do
      let inner ← changeAt change steps []
      some (entries ++ [(step, .table .parent inner)])
    | some (.table origin inner) =>
      if origin = .inline then none
      else do
        let inner ← changeAt change steps inner
        some (entries.replace step (.table origin inner))
    | some (.tables latest earlier) => do
      let latest ← changeAt change steps latest
      some (entries.replace step (.tables latest earlier))
    | some _ => none

/-- Opens the table `name` by a header: it is new, or it was only on the way to another one. -/
def openTable (name : String) (entries : Entries) : Option Entries :=
  match entries.lookup name with
  | none => some (entries ++ [(name, .table .header [])])
  | some (.table .parent inner) => some (entries.replace name (.table .header inner))
  | some _ => none

/-- Opens a further table of the array of tables `name`. -/
def openElement (name : String) (entries : Entries) : Option Entries :=
  match entries.lookup name with
  | none => some (entries ++ [(name, .tables [] [])])
  | some (.tables latest earlier) => some (entries.replace name (.tables [] (latest :: earlier)))
  | some _ => none

end Entries

/-- One line of a document that says something. -/
inductive Statement where
  | openTable (key : Key)
  | openElement (key : Key)
  | assign (key : Key) (node : Node)

/-- A document under construction: its entries and the path of the open table. -/
structure Draft where
  entries : Entries
  current : List String

/-- The document after one more statement, unless that contradicts what is there. -/
def Draft.apply (d : Draft) : Statement → Option Draft
  | .openTable key => do
    let entries ← d.entries.changeAt (·.openTable key.name) key.parents
    some ⟨entries, key.parents ++ [key.name]⟩
  | .openElement key => do
    let entries ← d.entries.changeAt (·.openElement key.name) key.parents
    some ⟨entries, key.parents ++ [key.name]⟩
  | .assign key node => do
    let entries ← d.entries.changeAt (·.assign key.name node key.parents) d.current
    some ⟨entries, d.current⟩

/-- The document that a list of statements builds. -/
def Entries.ofStatements? (statements : List Statement) : Option Entries := do
  let d ← statements.foldlM Draft.apply ⟨[], []⟩
  some d.entries

end RecordFile.Toml
