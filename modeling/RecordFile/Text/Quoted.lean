import RecordFile.Text.Graphic

/-!
# Quoted text

How error messages show a text taken from the input: between double quotes, with a backslash before
a quote or a backslash, the usual letters for tab, line feed, carriage return and NUL, and the code
point in braces for every other character that does not stand for itself.
-/

namespace RecordFile.Quoted

/-- One character of a quoted text. -/
def escape (c : Char) : List Char :=
  if c = '"' || c = '\\' then ['\\', c]
  else if c = '\t' then ['\\', 't']
  else if c = '\n' then ['\\', 'n']
  else if c = '\r' then ['\\', 'r']
  else if c = '\x00' then ['\\', '0']
  else if isGraphic c then [c]
  else ['\\', 'u', '\x7b'] ++ Nat.toDigits 16 c.toNat ++ ['\x7d']

/-- The text between double quotes. -/
def quote (text : String) : String :=
  String.ofList ('"' :: text.toList.flatMap escape ++ ['"'])

end RecordFile.Quoted
