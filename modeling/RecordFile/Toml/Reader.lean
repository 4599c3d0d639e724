/-!
# Readers

A reader takes a piece off the front of a text or fails; `<|>` tries a second reader at the place
where the first one started. Readers are ordinary total functions: `many` repeats a reader at most
once for every character there is, which is as often as a reader that takes something can succeed.
-/

namespace RecordFile.Toml

/-- Takes a piece off the front of a text. -/
abbrev Reader := StateT (List Char) Option

namespace Reader

/-- The next character, which has to satisfy `p`. -/
def char (p : Char → Bool) : Reader Char
  | c :: rest => if p c then some (c, rest) else none
  | [] => none

/-- The characters of `text`, exactly. -/
def literal (text : String) : Reader Unit :=
  text.toList.forM fun c => discard (char (· = c))

/-- What the text begins with, without taking it. -/
def startsWith (text : String) : Reader Bool := fun s =>
  some (text.toList.isPrefixOf s, s)

/-- The end of the text. -/
def finished : Reader Unit
  | [] => some ((), [])
  | _ => none

/-- At most `n` pieces, as many as there are. -/
def upTo {α : Type} (p : Reader α) : (n : Nat) → Reader (List α)
  | 0 => pure []
  | n + 1 => (do return (← p) :: (← upTo p n)) <|> pure []

/-- As many pieces as there are. -/
def many {α : Type} (p : Reader α) : Reader (List α) := fun s =>
  upTo p (s.length + 1) s

/-- One or more pieces with separators between them. -/
def separated {α : Type} (p : Reader α) (separator : Reader Unit) : Reader (List α) := do
  return (← p) :: (← many (separator *> p))

/-- Exactly `n` characters that satisfy `p`. -/
def exactly (n : Nat) (p : Char → Bool) : Reader (List Char) :=
  (List.replicate n ()).mapM fun _ => char p

end Reader

end RecordFile.Toml
