import RecordFile.Number.Binary
import RecordFile.Number.Shortest

/-!
# Values

What reading a record file gives and what writing takes: scalars in the widest form of their family,
records as named values in order, and arrays. A record value may hold a name twice; whether it does
is the writer's concern.

The accessors read a scalar as another family where that loses nothing in range; `Value.same` is the
comparison of values, numeric on floating point numbers and structural everywhere else.
-/

namespace RecordFile

/-- A scalar, record or array. -/
inductive Value where
  | bool (b : Bool)
  | int (n : Int64)
  | uint (n : UInt64)
  | float (x : Binary64)
  | record (fields : List (String × Value))
  | array (items : List Value)

namespace Value

/-- The name of the value's form, as messages give it. -/
def form : Value → String
  | bool _ => "bool"
  | int _ => "int"
  | uint _ => "uint"
  | float _ => "float"
  | record _ => "record"
  | array _ => "array"

/-- The integer an integer value stands for. -/
def integer? : Value → Option Int
  | int n => some n.toInt
  | uint n => some n.toNat
  | _ => none

def toBool? : Value → Option Bool
  | bool b => some b
  | _ => none

/-- The integer as a signed word, if it fits. -/
def toInt64? : Value → Option Int64
  | int n => some n
  | uint n => if n.toNat < 0x8000000000000000 then some (.ofNat n.toNat) else none
  | _ => none

/-- The integer as an unsigned word, if it is not negative. -/
def toUInt64? : Value → Option UInt64
  | int n => if 0 ≤ n.toInt then some (.ofNat n.toInt.toNat) else none
  | uint n => some n
  | _ => none

/-- The floating point number, or the one nearest to the integer. -/
def toFloat? : Value → Option Binary64
  | float x => some x
  | int n => some (.ofInt n.toInt)
  | uint n => some (.ofInt n.toNat)
  | _ => none

/-- The first field of that name. -/
def field? (name : String) : Value → Option Value
  | record fields => fields.lookup name
  | _ => none

def items? : Value → Option (List Value)
  | array items => some items
  | _ => none

/-- The text of a number in a message; other values are named by their form. -/
def text : Value → String
  | int n => toString n.toInt
  | uint n => toString n.toNat
  | float x => x.text
  | v => v.form

mutual

/-- Whether two values are the same: of one form, with the same parts in the same order, floating
point numbers compared as numbers. -/
def same : Value → Value → Bool
  | bool a, bool b => a == b
  | int a, int b => a == b
  | uint a, uint b => a == b
  | float a, float b => a.same b
  | record a, record b => sameFields a b
  | array a, array b => sameItems a b
  | _, _ => false

def sameFields : List (String × Value) → List (String × Value) → Bool
  | [], [] => true
  | (n, v) :: a, (m, w) :: b => n == m && same v w && sameFields a b
  | _, _ => false

def sameItems : List Value → List Value → Bool
  | [], [] => true
  | v :: a, w :: b => same v w && sameItems a b
  | _, _ => false

end

end Value

/-- Types whose elements are values: a number becomes a value of the widest member of its family. -/
class ToValue (α : Type) where
  toValue : α → Value

export ToValue (toValue)

instance : ToValue Bool := ⟨.bool⟩
instance : ToValue Int8 := ⟨fun n => .int n.toInt64⟩
instance : ToValue Int16 := ⟨fun n => .int n.toInt64⟩
instance : ToValue Int32 := ⟨fun n => .int n.toInt64⟩
instance : ToValue Int64 := ⟨.int⟩
instance : ToValue UInt8 := ⟨fun n => .uint n.toUInt64⟩
instance : ToValue UInt16 := ⟨fun n => .uint n.toUInt64⟩
instance : ToValue UInt32 := ⟨fun n => .uint n.toUInt64⟩
instance : ToValue UInt64 := ⟨.uint⟩
instance : ToValue Binary32 := ⟨fun x => .float x.widen⟩
instance : ToValue Binary64 := ⟨.float⟩
instance : ToValue Value := ⟨id⟩
instance {α : Type} [ToValue α] : ToValue (List α) := ⟨fun items => .array (items.map toValue)⟩

end RecordFile
