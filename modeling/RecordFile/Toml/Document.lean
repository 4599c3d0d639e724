import RecordFile.Toml.Node
import RecordFile.Toml.Reader

/-!
# The grammar of TOML 1.0

Readers for the pieces of a document, from white space to statements, and `Document.read?`, which
reads a whole text: all of it has to follow the grammar, and its statements must not contradict one
another. Arrays and inline tables nest less than `nestingLimit` deep, and a dotted key has fewer
parts than that.
-/

namespace RecordFile.Toml

open Reader

/-- A bound on the nesting of values and on the parts of a key. -/
def nestingLimit : Nat := 80

/-! ## White space and comments -/

def isBlank (c : Char) : Bool := c = ' ' || c = '\t'

/-- Whether a comment may hold the character: anything but controls, of which the tab is allowed. -/
def isText (c : Char) : Bool := c = '\t' || (' ' ≤ c && c ≤ '~') || '\x80' ≤ c

def blanks : Reader Unit := discard (many (char isBlank))

def newline : Reader Unit := literal "\n" <|> literal "\r\n"

def comment : Reader Unit := literal "#" *> discard (many (char isText))

/-- The rest of a line after a statement. -/
def lineEnd : Reader Unit := do
  blanks
  discard (optional comment)
  newline <|> finished

/-- White space, comments and line ends, as they stand between the elements of an array. -/
def filler : Reader Unit :=
  discard (many (discard (char isBlank) <|> newline <|> comment *> newline))

/-! ## Strings -/

/-- The character of a code point written with `n` hexadecimal digits. -/
def codePoint (n : Nat) : Reader Char := do
  let digits ← exactly n fun c =>
    c.isDigit || ('a' ≤ c && c ≤ 'f') || ('A' ≤ c && c ≤ 'F')
  let value := digits.foldl (fun v c =>
    16 * v + (if c.isDigit then c.toNat - '0'.toNat else c.toLower.toNat - 'a'.toNat + 10)) 0
  if value.isValidChar then pure (Char.ofNat value) else failure

/-- The character that stands for the one after a backslash. -/
def escaped : Reader Char := do
  literal "\\"
  match ← char fun _ => true with
  | 'b' => pure '\x08'
  | 'f' => pure '\x0c'
  | 'n' => pure '\n'
  | 'r' => pure '\r'
  | 't' => pure '\t'
  | '"' => pure '"'
  | '\\' => pure '\\'
  | 'u' => codePoint 4
  | 'U' => codePoint 8
  | _ => failure

/-- A character of a string in double quotes that stands for itself. -/
def plainBasic : Reader Char := char fun c => isText c && c != '"' && c != '\\'

def basicString : Reader String := do
  literal "\""
  let content ← many (plainBasic <|> escaped)
  literal "\""
  return String.ofList content

/-- A character of a string in single quotes. -/
def plainLiteral : Reader Char := char fun c => isText c && c != '\''

def literalString : Reader String := do
  literal "'"
  let content ← many plainLiteral
  literal "'"
  return String.ofList content

/-- A quote that does not begin a run of three. -/
def loneQuote (quote : Char) : Reader Char := do
  if ← startsWith (String.ofList [quote, quote, quote]) then failure
  char (· = quote)

/-- The end of a string of several lines: three quotes, and up to two more that belong to it. -/
def longClose (quote : Char) : Reader (List Char) := do
  literal (String.ofList [quote, quote, quote])
  upTo (char (· = quote)) 2

/-- A backslash at the end of a line: it and all blanks and line ends after it stand for nothing. -/
def lineJoin : Reader Unit := do
  literal "\\"
  blanks
  newline
  discard (many (discard (char isBlank) <|> newline))

def longBasicString : Reader String := do
  literal "\"\"\""
  discard (optional newline)
  let piece : Reader (List Char) :=
    (fun c => [c]) <$> plainBasic <|> (fun _ => []) <$> lineJoin <|> (fun c => [c]) <$> escaped <|>
      (fun _ => ['\n']) <$> newline <|> (fun c => [c]) <$> loneQuote '"'
  let content ← many piece
  return String.ofList (content.flatten ++ (← longClose '"'))

def longLiteralString : Reader String := do
  literal "'''"
  discard (optional newline)
  let piece : Reader Char :=
    plainLiteral <|> (fun _ => '\n') <$> newline <|> loneQuote '\''
  let content ← many piece
  return String.ofList (content ++ (← longClose '\''))

def string : Reader String :=
  longBasicString <|> basicString <|> longLiteralString <|> literalString

/-! ## Keys -/

def simpleKey : Reader String :=
  basicString <|> literalString <|> do
    let isBare (c : Char) := c.isAlphanum || c = '-' || c = '_'
    return String.ofList ((← char isBare) :: (← many (char isBare)))

/-- A key with dots between its parts. -/
def key : Reader Key := do
  let parts ← separated (blanks *> simpleKey <* blanks) (literal ".")
  if nestingLimit ≤ parts.length then failure
  return ⟨parts.dropLast, parts.getLastD ""⟩

/-! ## Numbers and times -/

/-- Digits with single underscores between them; the underscores are left out. -/
def digits (isDigit : Char → Bool) : Reader (List Char) := do
  return (← char isDigit) :: (← many (char isDigit <|> literal "_" *> char isDigit))

def sign : Reader (List Char) := do
  return (← optional (char fun c => c = '+' || c = '-')).toList

/-- The digits of a decimal integer: a leading zero stands alone. -/
def decimalDigits : Reader (List Char) := do
  if ← startsWith "0" then
    literal "0"
    return ['0']
  digits Char.isDigit

/-- The number that digits of a base denote. -/
def numeralValue (base : Nat) (numeral : List Char) : Nat :=
  numeral.foldl (fun v c =>
    base * v + (if c.isDigit then c.toNat - '0'.toNat else c.toLower.toNat - 'a'.toNat + 10)) 0

/-- The integer, if it is a signed 64-bit number. -/
def bounded (n : Int) : Reader Int :=
  if Int64.minValue.toInt ≤ n ∧ n ≤ Int64.maxValue.toInt then pure n else failure

def integer : Reader Int := do
  if ← startsWith "0x" then
    literal "0x"
    bounded (numeralValue 16 (← digits fun c =>
      c.isDigit || ('a' ≤ c && c ≤ 'f') || ('A' ≤ c && c ≤ 'F')))
  else if ← startsWith "0o" then
    literal "0o"
    bounded (numeralValue 8 (← digits fun c => '0' ≤ c && c ≤ '7'))
  else if ← startsWith "0b" then
    literal "0b"
    bounded (numeralValue 2 (← digits fun c => c = '0' || c = '1'))
  else
    let s ← sign
    let n := numeralValue 10 (← decimalDigits)
    bounded (if s = ['-'] then -n else n)

/-- Whether the decimal `mantissa * 10 ^ exponent` rounds to infinity as a 64-bit number. -/
def overflows (mantissa : Nat) (exponent : Int) : Bool :=
  let places := ((toString mantissa).length : Int) + exponent
  if mantissa = 0 ∨ places < 300 then false
  else if 320 < places then true
  else
    let bound := (1 <<< 1024) - (1 <<< 970)
    bound * Nat.pow 10 (-exponent).toNat ≤ mantissa * Nat.pow 10 exponent.toNat

/-- The exponent of a floating point number: its text and its value. -/
def exponent : Reader (List Char × Int) := do
  let e ← char fun c => c = 'e' || c = 'E'
  let s ← sign
  let ds ← digits Char.isDigit
  let n : Int := numeralValue 10 ds
  return (e :: s ++ ds, if s = ['-'] then -n else n)

/-- A floating point number with a point, an exponent or both. One that rounds to positive infinity
is refused. -/
def finiteFloat : Reader String := do
  let s ← sign
  let whole ← decimalDigits
  let fraction ← optional (literal "." *> digits Char.isDigit)
  let power ← match fraction with
    | none => some <$> exponent
    | some _ => optional exponent
  let places := fraction.getD []
  let (powerText, power) := power.getD ([], 0)
  if s ≠ ['-'] ∧ overflows (numeralValue 10 (whole ++ places)) (power - places.length) then failure
  let point := if fraction.isSome then '.' :: places else []
  return String.ofList (s ++ whole ++ point ++ powerText)

def specialFloat : Reader String := do
  let s ← sign
  let name ← (literal "inf" *> pure "inf") <|> (literal "nan" *> pure "nan")
  return String.ofList s ++ name

def float : Reader String := finiteFloat <|> specialFloat

/-- A number of exactly `n` digits between two bounds, as it is written. -/
def field (n least greatest : Nat) : Reader (List Char) := do
  let ds ← exactly n Char.isDigit
  let value := numeralValue 10 ds
  if least ≤ value ∧ value ≤ greatest then pure ds else failure

def daysIn (year month : Nat) : Nat :=
  if month = 2 then
    if year % 4 = 0 ∧ (year % 100 ≠ 0 ∨ year % 400 = 0) then 29 else 28
  else if month = 4 ∨ month = 6 ∨ month = 9 ∨ month = 11 then 30
  else 31

def date : Reader (List Char) := do
  let year ← field 4 0 9999
  literal "-"
  let month ← field 2 1 12
  literal "-"
  let day ← field 2 1 31
  if daysIn (numeralValue 10 year) (numeralValue 10 month) < numeralValue 10 day then failure
  return year ++ '-' :: month ++ '-' :: day

def clock : Reader (List Char) := do
  let hour ← field 2 0 23
  literal ":"
  let minute ← field 2 0 59
  literal ":"
  let second ← field 2 0 60
  let fraction ← optional do
    let point ← char (· = '.')
    return point :: (← char Char.isDigit) :: (← many (char Char.isDigit))
  return hour ++ ':' :: minute ++ ':' :: second ++ fraction.getD []

def zone : Reader (List Char) :=
  (fun c => [c]) <$> (char fun c => c = 'Z' || c = 'z') <|> do
    let s ← char fun c => c = '+' || c = '-'
    let hour ← field 2 0 23
    literal ":"
    return s :: hour ++ ':' :: (← field 2 0 59)

/-- A date, a time of day, or both, then with or without a zone. -/
def time : Reader String :=
  (do
    let day ← date
    let rest ← optional do
      let delimiter ← char fun c => c = 'T' || c = 't' || c = ' '
      let hours ← clock
      return delimiter :: hours ++ (← optional zone).getD []
    return String.ofList (day ++ rest.getD [])) <|>
  String.ofList <$> clock

/-! ## Values -/

def boolean : Reader Bool :=
  (literal "true" *> pure true) <|> (literal "false" *> pure false)

/-- A value that holds no other values. -/
def simpleValue : Reader Node :=
  .string <$> string <|> .boolean <$> boolean <|> .time <$> time <|> .float <$> float <|>
    .integer <$> integer

/-- The elements of an array, whose last one may have a comma after it. -/
def arrayOf (value : Reader Node) : Reader Node := do
  literal "["
  let element := filler *> value <* filler
  let items := (← optional (separated element (literal ","))).getD []
  if !items.isEmpty then discard (optional (literal ","))
  filler
  literal "]"
  return .array items

/-- A key and its value. -/
def assignment (value : Reader Node) : Reader (Key × Node) := do
  let k ← key
  literal "="
  blanks
  return (k, ← value)

/-- A table between braces, on one line. -/
def inlineTableOf (value : Reader Node) : Reader Node := do
  literal "\x7b"
  let pairs := (← optional (separated (assignment value <* blanks) (literal ","))).getD []
  blanks
  literal "\x7d"
  let entries : Option Entries :=
    pairs.foldlM (fun entries (k, node) => Entries.assign k.name node k.parents entries) []
  match entries with
  | some entries => return .table .inline entries
  | none => failure

/-- A value with at most `depth` arrays and inline tables around one another. -/
def value : (depth : Nat) → Reader Node
  | 0 => simpleValue
  | depth + 1 => simpleValue <|> arrayOf (value depth) <|> inlineTableOf (value depth)

/-! ## Statements -/

def header : Reader Statement :=
  (do
    literal "[["
    let k ← key
    literal "]]"
    return .openElement k) <|>
  (do
    literal "["
    let k ← key
    literal "]"
    return .openTable k)

def statement : Reader Statement :=
  header <|> do
    let (k, node) ← assignment (value (nestingLimit - 1))
    return .assign k node

/-- A line: a statement, a comment or nothing. -/
def line : Reader (Option Statement) := do
  let found ← (some <$> (statement <* lineEnd)) <|> (comment *> lineEnd *> pure none) <|>
    (newline *> pure none)
  blanks
  return found

/-- All lines of a text; a byte order mark may precede them. -/
def lines : Reader (List Statement) := do
  discard (optional (literal "\ufeff"))
  blanks
  let found ← many line
  finished
  return found.filterMap id

/-- The table that a text describes. -/
def Document.read? (text : String) : Option Entries := do
  let (statements, _) ← lines text.toList
  Entries.ofStatements? statements

end RecordFile.Toml
