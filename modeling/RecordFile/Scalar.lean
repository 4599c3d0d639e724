/-!
# Scalar kinds

The eleven kinds of scalar a record can hold. A kind's width never changes: together with the order
of fields it fixes where every byte of a record lies. Kinds have one name each, and three of them a
second one, an alias, which is accepted wherever a type is named.
-/

namespace RecordFile

/-- A built-in scalar kind. -/
inductive Scalar where
  | boolean
  | int8
  | int16
  | int32
  | int64
  | uint8
  | uint16
  | uint32
  | uint64
  | float32
  | float64
  deriving DecidableEq, Repr

namespace Scalar

/-- Every kind, in the order in which a catalog lists them. -/
def all : List Scalar :=
  [boolean, int8, int16, int32, int64, uint8, uint16, uint32, uint64, float32, float64]

/-- The name of a kind in type expressions and messages. -/
def name : Scalar → String
  | boolean => "boolean"
  | int8 => "int8"
  | int16 => "int16"
  | int32 => "int32"
  | int64 => "int64"
  | uint8 => "uint8"
  | uint16 => "uint16"
  | uint32 => "uint32"
  | uint64 => "uint64"
  | float32 => "float32"
  | float64 => "float64"

/-- The other names of kinds. -/
def aliases : List (String × Scalar) :=
  [("bool", boolean), ("float", float32), ("double", float64)]

/-- The number of bytes of an encoded scalar. -/
def width : Scalar → Nat
  | boolean | int8 | uint8 => 1
  | int16 | uint16 => 2
  | int32 | uint32 | float32 => 4
  | int64 | uint64 | float64 => 8

def isSigned : Scalar → Bool
  | int8 | int16 | int32 | int64 => true
  | _ => false

def isUnsigned : Scalar → Bool
  | uint8 | uint16 | uint32 | uint64 => true
  | _ => false

def isFloat : Scalar → Bool
  | float32 | float64 => true
  | _ => false

/-- The kind of that name, aliases not accepted. -/
def ofCanonicalName? (name : String) : Option Scalar :=
  all.find? (·.name = name)

/-- The kind of that name or alias. -/
def ofName? (name : String) : Option Scalar :=
  ofCanonicalName? name <|> (aliases.find? (·.1 = name)).map (·.2)

/-- The place of the kind in `all`. -/
def position (k : Scalar) : Nat := all.idxOf k

theorem mem_all (k : Scalar) : k ∈ all := by
  cases k <;> decide

theorem width_le (k : Scalar) : k.width ≤ 8 := by
  cases k <;> decide

theorem ofName?_name (k : Scalar) : ofName? k.name = some k := by
  cases k <;> decide

end Scalar

end RecordFile
