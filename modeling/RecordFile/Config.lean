import RecordFile.Toml.Document

/-!
# Settings

The settings of a store: how many elements a block of a chained array has when its type does not
say, and whether every write is flushed. `Config.validate` checks a setting against its range,
`Config.build` makes settings from the ones that are given, and `Config.ofToml` reads them from a
TOML document, in which other keys are ignored.

A catalog takes its settings as they are: nothing but these functions validates them.
-/

namespace RecordFile

structure Config where
  /-- Elements per block of a chained array whose type names no capacity. -/
  defaultBlockCapacity : Nat := 128
  /-- Whether every write is followed by a flush of the device. -/
  syncOnWrite : Bool := false
  deriving DecidableEq, Repr

/-- Why settings are refused. -/
inductive ConfigError where
  /-- The block capacity is not between one and `maxBlockCapacity`. -/
  | blockCapacity (capacity : Nat)
  /-- The text is not a document, or a setting has a value of another type. -/
  | unreadable
  deriving DecidableEq, Repr

/-- The least capacity of a block. -/
def minBlockCapacity : Nat := 1

/-- The greatest capacity of a block of a chained array. -/
def maxBlockCapacity : Nat := 0x100000

namespace ConfigError

def message : ConfigError → String
  | blockCapacity capacity =>
    s!"invalid config: default_block_capacity must be {minBlockCapacity}-{maxBlockCapacity}, " ++
      s!"got {capacity}"
  | unreadable => "failed to parse config"

end ConfigError

namespace Config

/-- The settings themselves, if all of them are in range. -/
def validate (c : Config) : Except ConfigError Config :=
  if minBlockCapacity ≤ c.defaultBlockCapacity ∧ c.defaultBlockCapacity ≤ maxBlockCapacity then
    .ok c
  else .error (.blockCapacity c.defaultBlockCapacity)

/-- The settings with those that are given in place of the defaults. -/
def given (capacity : Option Nat) (sync : Option Bool) : Config :=
  ⟨capacity.getD 128, sync.getD false⟩

/-- Valid settings from those that are given. -/
def build (capacity : Option Nat) (sync : Option Bool) : Except ConfigError Config :=
  (given capacity sync).validate

/-- The block capacity that a document sets, if any. -/
def capacityIn (entries : Toml.Entries) : Except ConfigError (Option Nat) :=
  match entries.lookup "default_block_capacity" with
  | none => .ok none
  | some (.integer (.ofNat n)) => .ok (some n)
  | some _ => .error .unreadable

/-- Whether a document says to flush, if it says so. -/
def syncIn (entries : Toml.Entries) : Except ConfigError (Option Bool) :=
  match entries.lookup "sync_on_write" with
  | none => .ok none
  | some (.boolean b) => .ok (some b)
  | some _ => .error .unreadable

/-- The settings that a TOML document describes. -/
def ofToml (text : String) : Except ConfigError Config :=
  match Toml.Document.read? text with
  | none => .error .unreadable
  | some entries => do
    build (← capacityIn entries) (← syncIn entries)

end Config

end RecordFile
