import RecordFile.Layout

/-!
# Schemas

A schema is what a store is opened with: the root record, which a file begins with, the types by
name in the order of their definition, scalars first, and the settings. It never changes.
-/

namespace RecordFile

/-- A root record with the types it was defined among. -/
structure Schema where
  root : RecordLayout
  types : List (String × Layout)
  config : Config

namespace Schema

/-- The bytes of the root record. -/
def size (s : Schema) : Nat := s.root.size

/-- The root record as a type. -/
def rootLayout (s : Schema) : Layout := .record s.root

/-- The type of that name. -/
def lookup (s : Schema) (name : String) : Option Layout := s.types.lookup name

/-- The names of all types, in the order of their definition. -/
def typeNames (s : Schema) : List String := s.types.map (·.1)

end Schema

end RecordFile
