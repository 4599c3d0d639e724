import RecordFile.Scalar
import RecordFile.Value
import RecordFile.Text.Quoted

/-!
# Errors

Everything that can go wrong, as causes. An error belongs to one of four domains: `schema` errors
come from defining types, `path` errors from resolving a path or reaching an element, `encoding`
errors from a value that does not fit the place it is written to, and `io` errors from the device or
from a file whose contents break the layout. `Error.message` is the wording.

An operation can also end without an answer: it aborts when a device breaks off in the middle of a
call, or when it leaves the range of addresses or of a buffer. `Halt` is either way to end.
-/

namespace RecordFile

/-- The part of the work an error comes from. -/
inductive Domain where
  | schema
  | path
  | encoding
  | io
  deriving DecidableEq, Repr

/-- What is wrong with one segment of a path. -/
inductive PathFault where
  /-- The record has no field of that name. -/
  | noField (record segment : String)
  /-- The record has no field at that position. -/
  | noFieldAt (record : String) (step : Nat)
  /-- The segment below an array is not a numeral. -/
  | notAnIndex (segment : String)
  /-- A scalar has nothing below it. -/
  | belowScalar (kind : Scalar)
  deriving DecidableEq, Repr

/-- How the contents of a file break the layout. -/
inductive Corruption where
  /-- A scalar has fewer bytes than its width. -/
  | shortScalar (kind : Scalar) (given : Nat)
  /-- The link at `linkOffset` does not lead to a block of `blockSize` bytes behind it. -/
  | badLink (linkOffset link blockSize fileSize : Nat)
  /-- The file is too short to hold the root record. -/
  | shortFile (fileSize : Nat) (record : String) (needed : Nat)
  deriving DecidableEq, Repr

/-- The cause of a failure. -/
inductive Error where
  | unknownType (name : String)
  | invalidArrayLength (expression : String)
  | alreadyCompiled
  | duplicateType (name : String)
  | duplicateField (record field : String)
  | invalidName (name : String)
  | invalidPath (path : String) (position : Nat) (fault : PathFault)
  | indexOutOfRange (index capacity : Nat)
  /-- The number does not fit the kind. -/
  | outOfRange (kind : Scalar) (value : Value)
  /-- The value has another form than the type it is written to. -/
  | formMismatch (expected found : String)
  /-- The record value holds the field more than once. -/
  | repeatedField (record field : String)
  /-- The write plan was made for a type of another form. -/
  | planMismatch (expected : String)
  | missingField (record field : String)
  | unknownField (record field : String)
  /-- The device refused a call. -/
  | device (cause : String)
  | shortRead (offset length fileSize : Nat)
  | writeOutOfBounds (offset length fileSize : Nat)
  | corrupted (cause : Corruption)
  /-- The operation was run apart from its caller and broke off. -/
  | taskFailed

/-- How an operation ends without a result. -/
inductive Halt where
  | error (e : Error)
  | abort

namespace PathFault

def message : PathFault → String
  | noField record segment => s!"record {record} has no field " ++ Quoted.quote segment
  | noFieldAt record step => s!"record {record} has no field #{step}"
  | notAnIndex segment => Quoted.quote segment ++ " is not an array index"
  | belowScalar kind => kind.name ++ " has no fields"

end PathFault

namespace Corruption

def message : Corruption → String
  | shortScalar kind given =>
    kind.name ++ " needs " ++ toString kind.width ++ s!" bytes, got {given}"
  | badLink linkOffset link blockSize fileSize =>
    s!"link at offset {linkOffset} points to {link}, outside the valid range for a " ++
      s!"{blockSize}-byte block (file size {fileSize})"
  | shortFile fileSize record needed =>
    s!"file has {fileSize} bytes but root record {record} needs {needed}"

end Corruption

namespace Error

/-- The error of opening a file that does not exist. -/
def noSuchFile : Error := .device "No such file or directory (os error 2)"

/-- The error of giving a file a length past the greatest. -/
def lengthTooLarge : Error := .device "number too large to fit in target type"

/-- The domain an error belongs to. -/
def domain : Error → Domain
  | unknownType _ | invalidArrayLength _ | alreadyCompiled | duplicateType _ | duplicateField _ _
  | invalidName _ => .schema
  | invalidPath _ _ _ | indexOutOfRange _ _ => .path
  | outOfRange _ _ | formMismatch _ _ | repeatedField _ _ | planMismatch _ | missingField _ _
  | unknownField _ _ => .encoding
  | device _ | shortRead _ _ _ | writeOutOfBounds _ _ _ | corrupted _ | taskFailed => .io

/-- The wording of an error. -/
def message : Error → String
  | unknownType name => s!"Unknown type: {name}"
  | invalidArrayLength expression => "Invalid array length in " ++ Quoted.quote expression
  | alreadyCompiled => "Schema already compiled"
  | duplicateType name => s!"Type already defined: {name}"
  | duplicateField record field => s!"Duplicate field {field} in record {record}"
  | invalidName name => "Invalid name: " ++ Quoted.quote name
  | invalidPath path position fault =>
    "Invalid path " ++ Quoted.quote path ++ s!" at segment {position}: " ++ fault.message
  | indexOutOfRange index capacity => s!"Index {index} out of range (capacity {capacity})"
  | outOfRange kind value => "Value " ++ value.text ++ " out of range for " ++ kind.name
  | formMismatch expected found => s!"Type mismatch: expected {expected}, found {found}"
  | repeatedField record field =>
    s!"Type mismatch: expected one value for {record}.{field}, found duplicate"
  | planMismatch expected =>
    s!"Type mismatch: expected {expected}, found write plan for a different type"
  | missingField record field => s!"Missing field {field} for record {record}"
  | unknownField record field => s!"Unknown field {field} for record {record}"
  | device cause => s!"I/O error: {cause}"
  | shortRead offset length fileSize =>
    s!"Short read at offset {offset}: wanted {length} bytes, file has {fileSize}"
  | writeOutOfBounds offset length fileSize =>
    s!"Write at offset {offset} of {length} bytes exceeds file size {fileSize}"
  | corrupted cause => "Corrupted store: " ++ cause.message
  | taskFailed => "Background task failed"

end Error

end RecordFile
